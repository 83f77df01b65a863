import LoraLink.Lib.Crc
import Mathlib.Data.List.GetD
import Mathlib.Data.List.Induction

/-!
# Burst errors

The bits of a byte string are taken most significant bit first, in the order in which a check of `Lib/Crc.lean` takes
them. A burst of at most `n` bits changes bits inside a window of `n` consecutive ones.

- `crcBit_xor`, `crcBit_injective`: a shift of the register is linear, and loses nothing if the lowest bit of the
  polynomial is set;
- `shiftBits_eq`: up to `w` bits reach a register of `w` bits as if they had been loaded into it at once;
- `crc_burst`: a burst no longer than the register changes the check;
- `crc_trailer`: a string ended by its check brings the register to zero;
- `burst_detected`: so no such burst goes unnoticed.
-/

namespace LoraLink

variable {w : Nat} {poly : BitVec w}

/-! ## The register -/

theorem crcBit_xor (poly x y : BitVec w) : crcBit poly (x ^^^ y) = crcBit poly x ^^^ crcBit poly y := by
  simp only [crcBit, BitVec.msb_xor, BitVec.shiftLeft_xor_distrib]
  cases x.msb with
  | false =>
    cases y.msb with
    | false => rfl
    | true => exact BitVec.xor_assoc _ _ _
  | true =>
    cases y.msb with
    | false =>
      show x <<< 1 ^^^ y <<< 1 ^^^ poly = x <<< 1 ^^^ poly ^^^ y <<< 1
      ac_rfl
    | true =>
      show x <<< 1 ^^^ y <<< 1 = x <<< 1 ^^^ poly ^^^ (y <<< 1 ^^^ poly)
      have hcancel : x <<< 1 ^^^ poly ^^^ (y <<< 1 ^^^ poly) = x <<< 1 ^^^ y <<< 1 ^^^ (poly ^^^ poly) := by ac_rfl
      rw [hcancel, BitVec.xor_self, BitVec.xor_zero]

theorem crcBit_eq_zero (hpoly : poly.getLsbD 0 = true) {x : BitVec w} (h : crcBit poly x = 0) : x = 0 := by
  have hw : 0 < w := BitVec.lt_of_getLsbD hpoly
  unfold crcBit at h
  split at h
  · -- the lowest bit of the shifted register is that of the polynomial
    have hlow : (x <<< 1 ^^^ poly).getLsbD 0 = (0#w).getLsbD 0 := congrArg (fun y => y.getLsbD 0) h
    rw [BitVec.getLsbD_xor, hpoly, BitVec.getLsbD_zero] at hlow
    simp at hlow
  · rename_i hmsb
    refine BitVec.eq_of_getMsbD_eq fun i hi => ?_
    rw [show (0 : BitVec w) = 0#w from rfl, BitVec.getMsbD_zero]
    cases i with
    | zero => simpa [BitVec.msb] using hmsb
    | succ i =>
      have hbit := congrArg (fun y => y.getMsbD i) h
      simpa [BitVec.getMsbD_shiftLeft] using hbit

theorem crcBit_injective (hpoly : poly.getLsbD 0 = true) : Function.Injective (crcBit poly) := by
  intro x y h
  have hzero : crcBit poly (x ^^^ y) = 0 := by
    rw [crcBit_xor, h]
    exact BitVec.xor_self
  exact BitVec.xor_eq_zero_iff.mp (crcBit_eq_zero hpoly hzero)

/-! ## Bit by bit -/

/-- The top bit of the register, or none. -/
def topBit (w : Nat) (b : Bool) : BitVec w := if b then BitVec.twoPow w (w - 1) else 0

/-- One bit is added at the top, and the register is shifted. -/
def shiftIn (poly x : BitVec w) (b : Bool) : BitVec w := crcBit poly (x ^^^ topBit w b)

def shiftBits (poly x : BitVec w) (p : List Bool) : BitVec w := p.foldl (shiftIn poly) x

/-- The bits from the top of the register on. -/
def load (w : Nat) : List Bool → BitVec w
  | [] => 0
  | b :: p => topBit w b ^^^ (load w p >>> 1)

theorem getMsbD_topBit (w : Nat) (b : Bool) (i : Nat) (hi : i < w) : (topBit w b).getMsbD i = (b && decide (i = 0)) := by
  cases b with
  | false => simp [topBit]
  | true =>
    simp only [topBit, if_true, BitVec.getMsbD_twoPow]
    rw [Bool.true_and, Bool.eq_iff_iff]
    simp
    omega

theorem getMsbD_load (p : List Bool) : ∀ i, i < w → (load w p).getMsbD i = p.getD i false := by
  induction p with
  | nil => exact fun i _ => by simp [load]
  | cons b p ih =>
    intro i hi
    rw [load, BitVec.getMsbD_xor, getMsbD_topBit w b i hi, BitVec.getMsbD_ushiftRight]
    cases i with
    | zero => simp
    | succ i =>
      have hrest := ih i (by omega)
      simp [hi, hrest]

/-- Bits that leave the lowest one free are shifted to the top. -/
theorem crcBit_load (poly : BitVec w) {p : List Bool} (h : p.length < w) : crcBit poly (load w p >>> 1) = load w p := by
  have hmsb : (load w p >>> 1).msb = false := by
    rw [BitVec.msb, BitVec.getMsbD_ushiftRight]
    simp
  unfold crcBit
  rw [hmsb, if_neg Bool.false_ne_true]
  refine BitVec.eq_of_getMsbD_eq fun i hi => ?_
  rw [BitVec.getMsbD_shiftLeft, BitVec.getMsbD_ushiftRight, getMsbD_load p i hi]
  by_cases hlast : i + 1 < w
  · simp [hlast, getMsbD_load p i hi]
  · have hout : p.getD i false = false := by
      rw [List.getD_eq_getElem?_getD, List.getElem?_eq_none (by omega)]
      rfl
    rw [hout]
    simp [hlast]

/-- Bits that the register has room for are loaded, and the register is shifted as often. -/
theorem shiftBits_eq (poly : BitVec w) (p : List Bool) : ∀ x : BitVec w, p.length ≤ w →
    shiftBits poly x p = (crcBit poly)^[p.length] (x ^^^ load w p) := by
  induction p with
  | nil => exact fun x _ => (BitVec.xor_zero).symm
  | cons b p ih =>
    intro x h
    have hp : p.length < w := h
    have hstep : shiftBits poly x (b :: p) = shiftBits poly (shiftIn poly x b) p := rfl
    rw [hstep, ih _ (Nat.le_of_lt hp), List.length_cons, Function.iterate_succ_apply]
    congr 1
    rw [shiftIn, load, ← BitVec.xor_assoc, crcBit_xor poly (x ^^^ topBit w b), crcBit_load poly hp]

theorem shiftIn_injective (hpoly : poly.getLsbD 0 = true) (b : Bool) : Function.Injective fun x => shiftIn poly x b :=
  fun _ _ h => (BitVec.xor_left_inj _).mp (crcBit_injective hpoly h)

/-- Bits that follow do not make different registers equal. -/
theorem shiftBits_injective (hpoly : poly.getLsbD 0 = true) (p : List Bool) :
    Function.Injective fun x => shiftBits poly x p := by
  induction p with
  | nil => exact fun _ _ h => h
  | cons b p ih => exact fun x y h => shiftIn_injective hpoly b (ih h)

theorem shiftBits_append (poly x : BitVec w) (p q : List Bool) :
    shiftBits poly x (p ++ q) = shiftBits poly (shiftBits poly x p) q := List.foldl_append

/-- Two bit strings of one length that the register has room for are told apart by it. -/
theorem eq_of_shiftBits_eq (hpoly : poly.getLsbD 0 = true) {p q : List Bool} (hlength : p.length = q.length)
    (hw : p.length ≤ w) {x : BitVec w} (h : shiftBits poly x p = shiftBits poly x q) : p = q := by
  rw [shiftBits_eq poly p x hw, shiftBits_eq poly q x (hlength ▸ hw), hlength] at h
  have hload : load w p = load w q := (BitVec.xor_right_inj x).mp ((crcBit_injective hpoly).iterate _ h)
  refine List.ext_getElem hlength fun i hp hq => ?_
  have hbit := getMsbD_load p i (Nat.lt_of_lt_of_le hp hw)
  rw [hload, getMsbD_load q i (Nat.lt_of_lt_of_le hp hw), List.getD_eq_getElem _ _ hp,
    List.getD_eq_getElem _ _ hq] at hbit
  exact hbit.symm

/-- The same for longer strings that differ only in a window no longer than the register. -/
theorem eq_of_window (hpoly : poly.getLsbD 0 = true) {p q : List Bool} (hlength : p.length = q.length) {k n : Nat}
    (hn : n ≤ w) (hwindow : ∀ i, ¬ (k ≤ i ∧ i < k + n) → p[i]? = q[i]?) {x : BitVec w}
    (h : shiftBits poly x p = shiftBits poly x q) : p = q := by
  have hsplit : ∀ l : List Bool, l.take k ++ ((l.drop k).take n ++ l.drop (k + n)) = l := fun l => by
    rw [← List.drop_drop, List.take_append_drop, List.take_append_drop]
  have hfront : p.take k = q.take k := List.ext_getElem? fun i => by
    rw [List.getElem?_take, List.getElem?_take]
    split
    · exact hwindow i (by omega)
    · rfl
  have hback : p.drop (k + n) = q.drop (k + n) := List.ext_getElem? fun i => by
    rw [List.getElem?_drop, List.getElem?_drop]
    exact hwindow _ (by omega)
  rw [← hsplit p, ← hsplit q, hfront, hback, shiftBits_append, shiftBits_append, shiftBits_append, shiftBits_append] at h
  -- what follows the window does not hide the difference
  have hmiddle := shiftBits_injective hpoly _ h
  have hlengths : ((p.drop k).take n).length = ((q.drop k).take n).length := by
    simp only [List.length_take, List.length_drop, hlength]
  have hroom : ((p.drop k).take n).length ≤ w := by
    rw [List.length_take]
    exact Nat.le_trans (Nat.min_le_left _ _) hn
  have hsame := eq_of_shiftBits_eq hpoly hlengths hroom hmiddle
  rw [← hsplit p, ← hsplit q, hfront, hback, hsame]

/-! ## The bits of bytes -/

/-- Bit `i` of a byte string. -/
def bitAt (b : Bytes) (i : Nat) : Bool := (byteAt b (i / 8)).toBitVec.getMsbD (i % 8)

def bits (b : Bytes) : List Bool := (List.range (8 * b.length)).map (bitAt b)

/-- Two different strings of one length that differ only in a window of `n` consecutive bits. -/
structure Burst (n : Nat) (a b : Bytes) : Prop where
  length : a.length = b.length
  differ : a ≠ b
  window : ∃ k, ∀ i, bitAt a i ≠ bitAt b i → k ≤ i ∧ i < k + n

theorem length_bits (b : Bytes) : (bits b).length = 8 * b.length := by simp [bits]

theorem getElem?_bits (b : Bytes) (i : Nat) : (bits b)[i]? = if i < 8 * b.length then some (bitAt b i) else none := by
  rw [bits, List.getElem?_map]
  by_cases hi : i < 8 * b.length
  · rw [if_pos hi, List.getElem?_range hi]
    rfl
  · rw [if_neg hi, List.getElem?_eq_none (by rw [List.length_range]; omega)]
    rfl

theorem bits_cons (x : UInt8) (b : Bytes) : bits (x :: b) = bits [x] ++ bits b := by
  have hlength : 8 * (x :: b).length = 8 + 8 * b.length := by
    rw [List.length_cons]
    omega
  rw [bits, hlength, List.range_add, List.map_append, List.map_map]
  congr 1
  refine List.map_congr_left fun i _ => ?_
  have hbyte : (8 + i) / 8 = i / 8 + 1 := by omega
  have hbit : (8 + i) % 8 = i % 8 := by omega
  simp only [Function.comp_apply, bitAt, hbyte, hbit, byteAt_cons_succ]

/-- Strings of one length with the same bits are the same. -/
theorem eq_of_bits {a b : Bytes} (hlength : a.length = b.length) (h : bits a = bits b) : a = b := by
  refine List.ext_getElem hlength fun i ha hb => ?_
  rw [← UInt8.toBitVec_inj]
  refine BitVec.eq_of_getMsbD_eq fun j hj => ?_
  have hbit := congrArg (fun l => l[8 * i + j]?) h
  have hbyte : (8 * i + j) / 8 = i := by omega
  have hrest : (8 * i + j) % 8 = j := by omega
  simp only [getElem?_bits, if_pos (show 8 * i + j < 8 * a.length by omega),
    if_pos (show 8 * i + j < 8 * b.length by omega), Option.some.injEq, bitAt, hbyte, hrest, byteAt,
    List.getD_eq_getElem _ _ ha, List.getD_eq_getElem _ _ hb] at hbit
  exact hbit

/-! ## The check -/

/-- The bits of a byte are added to the register at once. -/
theorem load_byte (hw : 8 ≤ w) (x : UInt8) : load w (bits [x]) = x.toBitVec.setWidth w <<< (w - 8) := by
  refine BitVec.eq_of_getMsbD_eq fun i hi => ?_
  rw [getMsbD_load _ i hi, List.getD_eq_getElem?_getD, getElem?_bits, BitVec.getMsbD_shiftLeft, BitVec.getMsbD_setWidth]
  by_cases hbyte : i < 8
  · have hindex : i + (w - 8) + 8 - w = i := by omega
    have hdiv : i / 8 = 0 := by omega
    have hmod : i % 8 = i := by omega
    simp [hbyte, hindex, hdiv, hmod, bitAt, byteAt]
  · have hhigh : 8 ≤ i + (w - 8) + 8 - w := by omega
    rw [BitVec.getMsbD_of_ge _ _ hhigh]
    simp [hbyte]

theorem crcByte_eq (hw : 8 ≤ w) (poly x : BitVec w) (byte : UInt8) :
    crcByte poly x byte = shiftBits poly x (bits [byte]) := by
  rw [shiftBits_eq poly _ x (by rw [length_bits]; exact hw), load_byte hw]
  rfl

theorem crc_eq (hw : 8 ≤ w) (poly : BitVec w) (data : Bytes) :
    ∀ init, crc poly init data = shiftBits poly init (bits data) := by
  induction data with
  | nil => exact fun _ => rfl
  | cons x data ih =>
    intro init
    rw [bits_cons, shiftBits_append, ← crcByte_eq hw, ← ih]
    rfl

/-- A burst no longer than the register changes the check. -/
theorem crc_burst (hw : 8 ≤ w) (hpoly : poly.getLsbD 0 = true) {n : Nat} (hn : n ≤ w) {a b : Bytes} (h : Burst n a b)
    (init : BitVec w) : crc poly init a ≠ crc poly init b := by
  intro heq
  rw [crc_eq hw, crc_eq hw] at heq
  obtain ⟨k, hwindow⟩ := h.window
  have hlength : (bits a).length = (bits b).length := by rw [length_bits, length_bits, h.length]
  refine h.differ (eq_of_bits h.length (eq_of_window (k := k) hpoly hlength hn (fun i hi => ?_) heq))
  have hsame : bitAt a i = bitAt b i := by
    by_contra hne
    exact hi (hwindow i hne)
  rw [getElem?_bits, getElem?_bits, h.length, hsame]

/-- The number that bytes stand for, most significant byte first. -/
def beNat (b : Bytes) : Nat := b.foldl (fun n x => n * 2 ^ 8 + x.toNat) 0

theorem testBit_beNat (b : Bytes) : ∀ j, j < 8 * b.length → (beNat b).testBit j = bitAt b (8 * b.length - 1 - j) := by
  induction b using List.reverseRecOn with
  | nil => exact fun j hj => absurd hj (Nat.not_lt_zero _)
  | append_singleton b x ih =>
    intro j hj
    have hvalue : beNat (b ++ [x]) = 2 ^ 8 * beNat b + x.toNat := by
      rw [beNat, List.foldl_append, Nat.mul_comm]
      rfl
    rw [List.length_append, List.length_singleton] at hj ⊢
    rw [hvalue, Nat.testBit_two_pow_mul_add _ x.toNat_lt]
    split
    · have hbyte : (8 * (b.length + 1) - 1 - j) / 8 = b.length := by omega
      have hbit : (8 * (b.length + 1) - 1 - j) % 8 = 7 - j := by omega
      have hback : 8 - 1 - (7 - j) = j := by omega
      have hlow : 7 - j < 8 := by omega
      rw [bitAt, hbyte, hbit, BitVec.getMsbD_eq_getLsbD, hback]
      simp [byteAt, hlow, BitVec.getLsbD]
    · have hbyte : (8 * (b.length + 1) - 1 - j) / 8 < b.length := by omega
      have hindex : 8 * b.length - 1 - (j - 8) = 8 * (b.length + 1) - 1 - j := by omega
      rw [ih (j - 8) (by omega), hindex, bitAt, bitAt, byteAt_append_left hbyte]

/-- Bytes fill the register with the number they stand for. -/
theorem load_bits {b : Bytes} (hlength : 8 * b.length = w) : load w (bits b) = BitVec.ofNat w (beNat b) := by
  refine BitVec.eq_of_getMsbD_eq fun i hi => ?_
  have hindex : 8 * b.length - 1 - (w - 1 - i) = i := by omega
  have hbit := testBit_beNat b (w - 1 - i) (by omega)
  rw [hindex] at hbit
  rw [getMsbD_load _ i hi, List.getD_eq_getElem?_getD, getElem?_bits, if_pos (by omega), BitVec.getMsbD_eq_getLsbD,
    BitVec.getLsbD_ofNat, hbit]
  simp [hi]
  omega

/-- A string ended by its check brings the register to zero. -/
theorem crc_trailer (hw : 8 ≤ w) (poly init : BitVec w) {data trailer : Bytes} (hlength : 8 * trailer.length = w)
    (h : (crc poly init data).toNat = beNat trailer) : crc poly init (data ++ trailer) = 0 := by
  have hbits : (bits trailer).length ≤ w := Nat.le_of_eq ((length_bits trailer).trans hlength)
  have hload : load w (bits trailer) = crc poly init data := by
    rw [load_bits hlength, ← h, BitVec.ofNat_toNat, BitVec.setWidth_eq]
  have hzero : crcBit poly 0 = 0 := by
    have hsum := crcBit_xor poly 0 0
    rwa [BitVec.xor_self, BitVec.xor_self] at hsum
  rw [crc_append, crc_eq hw poly trailer, shiftBits_eq poly _ _ hbits, hload, BitVec.xor_self]
  exact Function.iterate_fixed hzero _

/-- A burst no longer than the register leaves no string that is ended by its check. -/
theorem burst_detected (hw : 8 ≤ w) (hpoly : poly.getLsbD 0 = true) {n : Nat} (hn : n ≤ w) {a b : Bytes} (h : Burst n a b)
    (init : BitVec w) {k : Nat} (hk : 8 * k = w) (hlength : k ≤ a.length)
    (ha : (crc poly init (a.take (a.length - k))).toNat = beNat (a.drop (a.length - k))) :
    (crc poly init (b.take (b.length - k))).toNat ≠ beNat (b.drop (b.length - k)) := by
  have hends : ∀ c : Bytes, k ≤ c.length →
      (crc poly init (c.take (c.length - k))).toNat = beNat (c.drop (c.length - k)) → crc poly init c = 0 := by
    intro c hc hcheck
    have htrailer : 8 * (c.drop (c.length - k)).length = w := by
      rw [List.length_drop]
      omega
    have hzero := crc_trailer hw poly init htrailer hcheck
    rwa [List.take_append_drop] at hzero
  intro hb
  exact crc_burst hw hpoly hn h init ((hends a hlength ha).trans (hends b (h.length ▸ hlength) hb).symm)

end LoraLink
