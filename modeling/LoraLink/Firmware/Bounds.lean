import LoraLink.Firmware.Ram
import Mathlib.Tactic.Ring

/-!
# The byte functions stay inside their buffers

Each of them returns, whatever the bytes are, and leaves in its buffer what the function of the same name without
buffers computes.

- `frame_returning`, `enc_returning`, `dec_returning`: the functions with loops;
- the payloads that are built in local arrays.
-/

namespace LoraLink.Firmware.Ram

variable {k m : Nat}

/-! ## Integers -/

theorem load_byte (b : Buf UInt8 k) {i : Nat} (h : i < k) : b.load i = .ok (byteAt b.items i) := b.load_eq h 0

theorem load_bind {β : Type} {b : Buf UInt8 k} {i : Nat} {f : UInt8 → Checked β} {Q : β → Prop} (h : i < k)
    (hf : Returning (f (byteAt b.items i)) Q) : Returning (b.load i >>= f) Q := Returning.bind_eq (load_byte b h) hf

theorem store_bind {β : Type} {b : Buf UInt8 k} {i : Nat} {x : UInt8} {f : Buf UInt8 k → Checked β} {Q : β → Prop}
    (h : i < k) (hf : Returning (f (b.put i x)) Q) : Returning (b.store i x >>= f) Q :=
  Returning.bind_eq (b.store_eq h x) hf

theorem w16_front {p : Buf UInt8 k} {l : Bytes} (h : l <+: p.items) {i : Nat} (hi : i = l.length) (hk : i + 2 ≤ k)
    (x : Nat) :
    Returning (w16 p i x) fun p' => l ++ Firmware.w16 x <+: p'.items := by
  refine (Buf.store_front h hi (by omega) _).bind fun p hp => ?_
  refine (Buf.store_front hp (by rw [hi, List.length_append]; rfl) (by omega) _).mono fun p hp => ?_
  rw [List.append_assoc] at hp
  exact hp

theorem w32_front {p : Buf UInt8 k} {l : Bytes} (h : l <+: p.items) {i : Nat} (hi : i = l.length) (hk : i + 4 ≤ k)
    (x : Nat) :
    Returning (w32 p i x) fun p' => l ++ Firmware.w32 x <+: p'.items := by
  refine (Buf.store_front h hi (by omega) _).bind fun p hp => ?_
  refine (Buf.store_front hp (by rw [hi, List.length_append]; rfl) (by omega) _).bind fun p hp => ?_
  refine (Buf.store_front hp (by rw [hi, List.length_append, List.length_append]; rfl) (by omega) _).bind fun p hp => ?_
  refine (Buf.store_front hp (by rw [hi]; simp) (by omega) _).mono fun p hp => ?_
  simp only [List.append_assoc] at hp
  exact hp

theorem r16_eq (p : Buf UInt8 k) {i : Nat} (h : i + 2 ≤ k) : r16 p i = .ok (Firmware.r16 (p.items.drop i)) := by
  rw [r16, load_byte p (show i < k by omega), load_byte p (show i + 1 < k by omega), Firmware.r16, u16, byteAt_drop,
    byteAt_drop]
  rfl

theorem r32_eq (p : Buf UInt8 k) {i : Nat} (h : i + 4 ≤ k) : r32 p i = .ok (Firmware.r32 (p.items.drop i)) := by
  rw [r32, load_byte p (show i < k by omega), load_byte p (show i + 1 < k by omega),
    load_byte p (show i + 2 < k by omega), load_byte p (show i + 3 < k by omega), Firmware.r32, u32, byteAt_drop,
    byteAt_drop, byteAt_drop, byteAt_drop]
  rfl

/-- The same of the first `n` bytes. -/
theorem load_taken (b : Buf UInt8 k) {i n : Nat} (hi : i < n) (hn : n ≤ k) :
    b.load i = .ok (byteAt (b.items.take n) i) := by
  have hlength : i < (b.items.take n).length := by
    rw [List.length_take, b.length_items]
    omega
  rw [load_byte b (by omega), ← byteAt_append_left hlength (b := b.items.drop n), List.take_append_drop]

theorem r16_taken (b : Buf UInt8 k) {i n : Nat} (hi : i + 2 ≤ n) (hn : n ≤ k) :
    r16 b i = .ok (Firmware.r16 ((b.items.take n).drop i)) := by
  rw [r16, load_taken b (show i < n by omega) hn, load_taken b (show i + 1 < n by omega) hn, Firmware.r16, u16,
    byteAt_drop, byteAt_drop]
  rfl

theorem r32_taken (b : Buf UInt8 k) {i n : Nat} (hi : i + 4 ≤ n) (hn : n ≤ k) :
    r32 b i = .ok (Firmware.r32 ((b.items.take n).drop i)) := by
  rw [r32, load_taken b (show i < n by omega) hn, load_taken b (show i + 1 < n by omega) hn,
    load_taken b (show i + 2 < n by omega) hn, load_taken b (show i + 3 < n by omega) hn, Firmware.r32, u32, byteAt_drop,
    byteAt_drop, byteAt_drop, byteAt_drop]
  rfl

theorem take_succ_byte (b : Buf UInt8 k) {n : Nat} (h : n < k) :
    b.items.take (n + 1) = b.items.take n ++ [byteAt b.items n] := by
  have hn : n < b.items.length := by
    rw [b.length_items]
    exact h
  rw [List.take_add_one, byteAt, List.getD_eq_getElem?_getD, List.getElem?_eq_getElem hn]
  rfl

theorem crc_eq (d : Buf UInt8 k) {n : Nat} (h : n ≤ k) : crc d n = .ok (Firmware.crc (d.items.take n)) := by
  have hloop : ∀ n, n ≤ k → crcLoop d n = .ok (LoraLink.crc 0x1021#16 0xffff#16 (d.items.take n)) := by
    intro n
    induction n with
    | zero => exact fun _ => rfl
    | succ n ih =>
      intro hn
      rw [crcLoop, ih (by omega), load_byte d (show n < k by omega), take_succ_byte d (by omega), crc_append]
      rfl
  rw [crc, hloop n h]
  rfl

/-! ## Frames -/

/-- Two bytes that the source clears from the right: `p[i] = p[i + 1] = 0`. -/
theorem clear_front {p : Buf UInt8 k} {l : Bytes} (h : l <+: p.items) {i j : Nat} (hi : i = l.length) (hj : j = i + 1)
    (hk : j < k) {β : Type} {Q : β → Prop} {f : Buf UInt8 k → Checked β}
    (hf : ∀ p', l ++ [0, 0] <+: p'.items → Returning (f p') Q) :
    Returning (do
      let p ← p.store j 0
      let p ← p.store i 0
      f p) Q := by
  subst hi hj
  rw [p.store_eq hk]
  show Returning ((p.put (l.length + 1) 0).store l.length 0 >>= f) Q
  rw [Buf.store_eq _ (by omega)]
  exact hf _ (Buf.put_put_front h hk 0 0)

theorem frame_returning (type : UInt8) (ses seq : Nat) (p : Buf UInt8 m) {pn : Nat} (hm : pn ≤ m) (out : Buf UInt8 k)
    (hk : 18 + pn ≤ k) : Returning (frame type ses seq p pn out) fun r =>
      r.1 = 18 + pn ∧ Firmware.frame type ses seq (p.items.take pn) <+: r.2.items := by
  have hpn : (p.items.take pn).length = pn := by
    rw [List.length_take, p.length_items]
    omega
  refine (Buf.store_front (i := 0) List.nil_prefix rfl (by omega) _).bind fun out h => ?_
  refine (Buf.store_front (i := 1) h rfl (by omega) _).bind fun out h => ?_
  refine (Buf.store_front (i := 2) h rfl (by omega) _).bind fun out h => ?_
  refine (Buf.store_front (i := 3) h rfl (by omega) _).bind fun out h => ?_
  refine clear_front (i := 4) (j := 5) h rfl rfl (by omega) fun out h => ?_
  refine (w32_front (i := 6) h rfl (by omega) _).bind fun out h => ?_
  refine (w32_front (i := 10) h rfl (by omega) _).bind fun out h => ?_
  refine (w16_front (i := 14) h rfl (by omega) _).bind fun out h => ?_
  have hend : ∀ out : Buf UInt8 k, frameHead type ses seq (p.items.take pn) <+: out.items → Returning (do
      let out ← w16 out (16 + pn) (← crc out (16 + pn))
      return (18 + pn, out)) fun r => r.1 = 18 + pn ∧ Firmware.frame type ses seq (p.items.take pn) <+: r.2.items := by
    intro out h
    have hlength : (frameHead type ses seq (p.items.take pn)).length = 16 + pn := by
      simp [frameHead, Firmware.w16, Firmware.w32, hpn]
      omega
    have hhead : out.items.take (16 + pn) = frameHead type ses seq (p.items.take pn) := by
      rw [← hlength]
      exact (List.prefix_iff_eq_take.mp h).symm
    rw [crc_eq out (by omega), hhead]
    exact (w16_front h hlength.symm (by omega) _).bind fun out h => Returning.pure ⟨rfl, h⟩
  by_cases hzero : pn ≠ 0
  · simp only [if_pos hzero]
    refine (Buf.memcpy_front h (show 16 = _ from rfl) p 0 (by omega) (by omega)).bind fun out h => hend out ?_
    rw [frameHead, hpn]
    exact h
  · simp only [if_neg hzero]
    refine hend out ?_
    rw [frameHead, hpn]
    obtain rfl : pn = 0 := not_not.mp hzero
    rw [List.take_zero, List.append_nil]
    exact h

/-! ## COBS -/

/-- The variables of the loop of `enc` over arrays and over byte strings: the slot at `ci` is filled in later. Every
block that is closed has taken 254 bytes. -/
structure EncTracks (v : EncVars k) (s : EncState) : Prop where
  wi : s.o.length = v.wi
  ci : s.ci = v.ci
  code : s.code = v.code
  slot : v.ci < v.wi
  items : (v.o.items.take v.wi).set v.ci 0 = s.o
  room : 1 ≤ v.code ∧ ∃ closed, v.wi = v.ri + 1 + closed ∧ 254 * closed + v.code ≤ v.ri + 1

/-- The open slot is filled. -/
theorem EncTracks.close {v : EncVars k} {s : EncState} (h : EncTracks v s) :
    s.o.set s.ci (UInt8.ofNat s.code) = (v.o.items.take v.wi).set v.ci (UInt8.ofNat v.code) := by
  rw [← h.items, h.ci, h.code, List.set_set]

theorem take_put_last (b : Buf UInt8 k) {n : Nat} (h : n < k) (x : UInt8) :
    (b.put n x).items.take (n + 1) = b.items.take n ++ [x] := by
  have hn : n < b.items.length := b.length_items.symm ▸ h
  show (b.items.set n x).take (n + 1) = _
  rw [List.take_set, List.take_add_one, List.getElem?_eq_getElem hn, List.set_append_right _ _ (by simp)]
  simp [Nat.min_eq_left (Nat.le_of_lt hn)]

theorem take_put_before (b : Buf UInt8 k) {i n : Nat} (x : UInt8) :
    (b.put i x).items.take n = (b.items.take n).set i x := List.take_set

/-- A slot that is left open: whatever it holds counts as zero. -/
theorem take_open (b : Buf UInt8 k) {n : Nat} (h : n < k) : (b.items.take (n + 1)).set n 0 = b.items.take n ++ [0] := by
  rw [← take_put_before, take_put_last b h]

theorem encPass_tracks {a : Buf UInt8 m} {v : EncVars k} {s : EncState} (h : EncTracks v s) {n : Nat} (hri : v.ri < n)
    (hm : n ≤ m) (hk : n + 1 + n / 254 ≤ k) : Returning (encPass a v) fun v' =>
      EncTracks v' (encByte s (byteAt a.items v.ri)) ∧ v'.ri = v.ri + 1 := by
  obtain ⟨hcode, closed, hwi, hclosed⟩ := h.room
  have hslot := h.slot
  have hwik : v.wi + 1 ≤ k := by omega
  unfold encPass encByte
  refine load_bind (by omega) ?_
  by_cases hx : byteAt a.items v.ri = 0
  · rw [if_pos hx, if_pos hx]
    refine store_bind (by omega)
      (Returning.pure ⟨⟨?_, h.wi, rfl, Nat.lt_succ_self _, ?_, le_refl _, closed, ?_, ?_⟩, rfl⟩)
    · rw [List.length_append, List.length_set, h.wi]
      rfl
    · rw [take_open _ (by omega), take_put_before, h.close]
    · show v.wi + 1 = v.ri + 1 + 1 + closed
      omega
    · show 254 * closed + 1 ≤ v.ri + 1 + 1
      omega
  · rw [if_neg hx, if_neg hx]
    refine load_bind (by omega) (store_bind (by omega) ?_)
    have hbefore : v.ci < (v.o.items.take v.wi).length := by
      rw [List.length_take, v.o.length_items]
      omega
    have hone : ((v.o.put v.wi (byteAt a.items v.ri)).items.take (v.wi + 1)).set v.ci 0 =
        s.o ++ [byteAt a.items v.ri] := by
      rw [take_put_last _ (by omega), List.set_append_left _ _ hbefore, h.items]
    have hlength : (s.o ++ [byteAt a.items v.ri]).length = v.wi + 1 := by
      rw [List.length_append, h.wi]
      rfl
    by_cases hfull : v.code + 1 = 0xff
    · rw [if_pos hfull]
      refine store_bind (by omega) (Returning.pure ⟨?_, rfl⟩)
      simp only [h.code, if_pos hfull]
      refine ⟨?_, hlength, rfl, Nat.lt_succ_self _, ?_, le_refl _, closed + 1, ?_, ?_⟩
      · rw [List.length_append, List.length_set, hlength]
        rfl
      · rw [take_open _ (by omega), take_put_before, ← hone, h.ci, List.set_set]
      · show v.wi + 2 = v.ri + 1 + 1 + (closed + 1)
        omega
      · show 254 * (closed + 1) + 1 ≤ v.ri + 1 + 1
        omega
    · rw [if_neg hfull]
      refine Returning.pure ⟨?_, rfl⟩
      simp only [h.code, if_neg hfull]
      refine ⟨hlength, h.ci, rfl, Nat.lt_succ_of_lt hslot, hone, Nat.le_add_left _ _, closed, ?_, ?_⟩
      · show v.wi + 1 = v.ri + 1 + 1 + closed
        omega
      · show 254 * closed + (v.code + 1) ≤ v.ri + 1 + 1
        omega

theorem encLoop_tracks {a : Buf UInt8 m} {n : Nat} (hm : n ≤ m) (hk : n + 1 + n / 254 ≤ k) :
    ∀ (left : Nat) {v : EncVars k} {s : EncState}, EncTracks v s → v.ri + left = n →
      Returning (encLoop a left v) fun v' =>
        EncTracks v' (((a.items.drop v.ri).take left).foldl encByte s) ∧ v'.ri = n
  | 0, v, s, h, hri => Returning.pure ⟨h, hri⟩
  | left + 1, v, s, h, hri => by
    refine (encPass_tracks h (by omega) hm hk).bind fun v' ⟨hv', hri'⟩ => ?_
    have hlt : v.ri < a.items.length := by
      rw [a.length_items]
      omega
    have hdrop : (a.items.drop v.ri).take (left + 1) = byteAt a.items v.ri :: (a.items.drop v'.ri).take left := by
      rw [List.drop_eq_getElem_cons hlt, List.take_succ_cons, hri', byteAt, List.getD_eq_getElem?_getD,
        List.getElem?_eq_getElem hlt]
      rfl
    rw [hdrop]
    exact encLoop_tracks hm hk left hv' (by omega)

/-- The output of `enc` has one byte more than the input, and one more for every 254. -/
theorem enc_returning (a : Buf UInt8 m) {n : Nat} (hm : n ≤ m) (o : Buf UInt8 k) (hk : n + 1 + n / 254 ≤ k) :
    Returning (enc a n o) fun r => r.1 ≤ n + 1 + n / 254 ∧ r.2.items.take r.1 = Firmware.enc (a.items.take n) ∧
      r.1 = (Firmware.enc (a.items.take n)).length := by
  have hstart : EncTracks { ri := 0, wi := 1, ci := 0, code := 1, o := o } { o := [0], ci := 0, code := 1 } :=
    ⟨rfl, rfl, rfl, Nat.zero_lt_one, take_open o (by omega), le_refl _, 0, rfl, le_refl _⟩
  refine (encLoop_tracks (a := a) hm hk n hstart (Nat.zero_add n)).bind fun v ⟨h, hri⟩ => ?_
  obtain ⟨hcode, closed, hwi, hclosed⟩ := h.room
  have hslot := h.slot
  refine store_bind (by omega) (Returning.pure ⟨?_, ?_, ?_⟩)
  · show v.wi ≤ n + 1 + n / 254
    omega
  · rw [take_put_before]
    exact h.close.symm
  · show v.wi = (List.set _ _ _).length
    rw [List.length_set]
    exact h.wi.symm

theorem drop_byte (a : Buf UInt8 m) {i : Nat} (h : i < m) :
    a.items.drop i = byteAt a.items i :: a.items.drop (i + 1) := by
  have hi : i < a.items.length := a.length_items.symm ▸ h
  rw [List.drop_eq_getElem_cons hi, byteAt, List.getD_eq_getElem?_getD, List.getElem?_eq_getElem hi]
  rfl

/-- The inner loop of `dec` copies a block, if it fits. -/
theorem decCopy_returning {a : Buf UInt8 m} : ∀ (left ri wi : Nat) {o : Buf UInt8 UD} {l : Bytes}, ri + left ≤ m →
    l <+: o.items → wi = l.length → wi ≤ UD →
    Returning (decCopy a left ri wi o) fun r =>
      if UD < wi + left then r = none
      else ∃ o' : Buf UInt8 UD, r = some (ri + left, wi + left, o') ∧ l ++ (a.items.drop ri).take left <+: o'.items
  | 0, ri, wi, o, l, _, hl, hwi, hfits => by
    refine Returning.pure ?_
    rw [if_neg (by omega)]
    exact ⟨o, rfl, by rwa [List.take_zero, List.append_nil]⟩
  | left + 1, ri, wi, o, l, hm, hl, hwi, hfits => by
    unfold decCopy
    by_cases hfull : wi ≥ UD
    · rw [if_pos hfull]
      refine Returning.pure ?_
      rw [if_pos (by omega)]
    · rw [if_neg hfull]
      refine load_bind (by omega) ?_
      refine (Buf.store_front hl hwi (by omega) _).bind fun o ho => ?_
      have hlength : wi + 1 = (l ++ [byteAt a.items ri]).length := by
        rw [List.length_append, hwi]
        rfl
      refine (decCopy_returning left (ri + 1) (wi + 1) (by omega) ho hlength (by omega)).mono fun r hr => ?_
      rw [show wi + 1 + left = wi + (left + 1) by omega, show ri + 1 + left = ri + (left + 1) by omega] at hr
      split
      · rwa [if_pos ‹_›] at hr
      · rw [if_neg ‹_›] at hr
        obtain ⟨o', ho', hprefix⟩ := hr
        refine ⟨o', ho', ?_⟩
        rw [drop_byte a (by omega), List.take_succ_cons]
        rwa [List.append_assoc] at hprefix

/-- A pass of the loop of `dec`; the rest of the input is what the function without buffers has left. -/
theorem decLoop_returning {a : Buf UInt8 m} {n : Nat} (hm : n ≤ m) (fuel : Nat) : ∀ (ri wi : Nat) {o : Buf UInt8 UD}
    {l : Bytes}, ri ≤ n → l <+: o.items → wi = l.length → wi ≤ UD →
    Returning (decLoop a n fuel ri wi o) fun r =>
      match Firmware.decLoop fuel ((a.items.take n).drop ri) l with
      | none => r = none
      | some out => out.length ≤ UD ∧ ∃ o' : Buf UInt8 UD, r = some (out.length, o') ∧ out <+: o'.items := by
  have hrest : ∀ ri, ((a.items.take n).drop ri).length = n - ri := by
    intro ri
    rw [List.length_drop, List.length_take, a.length_items, Nat.min_eq_left hm]
  have hend : ∀ {ri}, ¬ ri < n → (a.items.take n).drop ri = [] := by
    intro ri hge
    refine List.eq_nil_of_length_eq_zero ?_
    rw [hrest]
    omega
  have hnext : ∀ {ri}, ri < n → (a.items.take n).drop ri = byteAt a.items ri :: (a.items.take n).drop (ri + 1) := by
    intro ri hlt
    have hsplit : n - ri = n - (ri + 1) + 1 := by omega
    rw [List.drop_take, drop_byte a (by omega), hsplit, List.take_succ_cons, List.drop_take]
  have hblock : ∀ {ri c}, ri + c ≤ n → ((a.items.take n).drop ri).take c = (a.items.drop ri).take c := by
    intro ri c hc
    rw [List.drop_take, List.take_take, Nat.min_eq_left (by omega)]
  induction fuel with
  | zero =>
    intro ri wi o l hri hl hwi hfits
    unfold decLoop
    refine Returning.pure ?_
    by_cases hlt : ri < n
    · rw [hnext hlt, if_pos hlt]
      rfl
    · rw [hend hlt, if_neg hlt]
      exact ⟨hwi ▸ hfits, o, by rw [hwi], hl⟩
  | succ fuel ih =>
    intro ri wi o l hri hl hwi hfits
    unfold decLoop
    by_cases hlt : ri < n
    · rw [if_pos hlt, hnext hlt]
      refine load_bind (by omega) ?_
      unfold Firmware.decLoop
      generalize byteAt a.items ri = code
      have hpos : code ≠ 0 → 0 < code.toNat := by
        intro hne
        refine Nat.pos_of_ne_zero fun hzero => hne ?_
        exact UInt8.toNat_inj.mp hzero
      have hsame : (code = 0 ∨ ((a.items.take n).drop (ri + 1)).length < code.toNat - 1) ↔
          (code = 0 ∨ ri + 1 + code.toNat - 1 > n) := by
        rw [hrest]
        refine or_congr_right' fun hne => ?_
        have := hpos hne
        omega
      by_cases hbad : code = 0 ∨ ri + 1 + code.toNat - 1 > n
      · rw [if_pos hbad, if_pos (hsame.mpr hbad)]
        exact Returning.pure rfl
      · rw [if_neg hbad, if_neg (fun h => hbad (hsame.mp h))]
        rw [not_or] at hbad
        obtain ⟨hne, hshort⟩ := hbad
        have hcode := hpos hne
        refine (decCopy_returning (code.toNat - 1) (ri + 1) wi (by omega) hl hwi hfits).bind fun r hr => ?_
        by_cases hfull : UD < wi + (code.toNat - 1)
        · rw [if_pos hfull] at hr
          subst hr
          rw [if_pos (hwi ▸ hfull)]
          exact Returning.pure rfl
        · rw [if_neg hfull] at hr
          obtain ⟨o', rfl, hprefix⟩ := hr
          rw [if_neg (hwi ▸ hfull)]
          simp only [hblock (show ri + 1 + (code.toNat - 1) ≤ n by omega), List.drop_drop]
          have hwi' : wi + (code.toNat - 1) = (l ++ (a.items.drop (ri + 1)).take (code.toNat - 1)).length := by
            rw [List.length_append, List.length_take, List.length_drop, a.length_items, hwi]
            omega
          have hri' : ri + 1 + (code.toNat - 1) ≤ n := by omega
          generalize l ++ (a.items.drop (ri + 1)).take (code.toNat - 1) = l' at hprefix hwi'
          generalize ri + 1 + (code.toNat - 1) = ri' at hri'
          generalize wi + (code.toNat - 1) = wi' at hwi' hfull
          have hmore : (code ≠ 0xff ∧ (a.items.take n).drop ri' ≠ []) ↔ code ≠ 0xff ∧ ri' < n := by
            refine and_congr_right fun _ => ⟨fun hne => ?_, fun hlt' hnil => ?_⟩
            · by_contra hge
              exact hne (hend hge)
            · rw [hnext hlt'] at hnil
              cases hnil
          by_cases hsep : code ≠ 0xff ∧ ri' < n
          · rw [if_pos hsep, if_pos (hmore.mpr hsep)]
            by_cases hlast : wi' ≥ UD
            · rw [if_pos hlast, if_pos (hwi' ▸ hlast)]
              exact Returning.pure rfl
            · rw [if_neg hlast, if_neg (hwi' ▸ hlast)]
              refine (Buf.store_front hprefix hwi' (by omega) _).bind fun o ho => ?_
              refine ih ri' (wi' + 1) hri' ho ?_ (by omega)
              rw [List.length_append, hwi']
              rfl
          · rw [if_neg hsep, if_neg fun h => hsep (hmore.mp h)]
            exact ih ri' wi' hri' hprefix hwi' (by omega)
    · rw [if_neg hlt, hend hlt]
      exact Returning.pure ⟨hwi ▸ hfits, o, by rw [hwi], hl⟩

theorem dec_returning (a : Buf UInt8 m) {n : Nat} (hm : n ≤ m) (o : Buf UInt8 UD) : Returning (dec a n o) fun r =>
    match Firmware.dec (a.items.take n) with
    | none => r = none
    | some out => out.length ≤ UD ∧ ∃ o' : Buf UInt8 UD, r = some (out.length, o') ∧ out <+: o'.items := by
  have hlength : (a.items.take n).length = n := by
    rw [List.length_take, a.length_items, Nat.min_eq_left hm]
  have h := decLoop_returning (a := a) hm n 0 0 (Nat.zero_le n) (List.nil_prefix (l := o.items)) rfl (Nat.zero_le UD)
  rw [List.drop_zero] at h
  unfold Firmware.dec
  rw [hlength]
  exact h

theorem protocolSelfTest_eq : protocolSelfTest = .ok Firmware.protocolSelfTest := by
  rw [protocolSelfTest_passes]
  decide +kernel

/-! ## Payloads -/

theorem errorPayload_returning (code : Nat) (detail : Int) (type : UInt8) :
    Returning (errorPayload code detail type) fun p => p.items = Firmware.errorPayload code detail type := ⟨_, rfl, rfl⟩

theorem txokPayload_returning (hw : Hw) (s : Fw) : Returning (txokPayload hw s) fun p => p.items =
    Firmware.w32 s.boot ++ Firmware.w32 s.txAir ++ Firmware.w32 ((hw.micros + 2 ^ 32 - s.txStart) % 2 ^ 32) :=
      ⟨_, rfl, rfl⟩

/-- The rest of an array that is cleared at first. -/
def Cleared (l : Bytes) (j : Nat) (p : Buf UInt8 k) : Prop := p.items = l ++ List.replicate j 0

theorem store_cleared {p : Buf UInt8 k} {l : Bytes} {j : Nat} (h : Cleared l (j + 1) p) {i : Nat} (hi : i = l.length)
    (x : UInt8) : Returning (p.store i x) (Cleared (l ++ [x]) j) := Buf.store_behind h hi x

theorem w16_cleared {p : Buf UInt8 k} {l : Bytes} {j : Nat} (h : Cleared l (j + 2) p) {i : Nat} (hi : i = l.length)
    (x : Nat) :
    Returning (w16 p i x) (Cleared (l ++ Firmware.w16 x) j) := by
  refine (store_cleared h hi _).bind fun p h => ?_
  refine (store_cleared h (by rw [hi, List.length_append]; rfl) _).mono fun p h => ?_
  rw [List.append_assoc] at h
  exact h

theorem w32_cleared {p : Buf UInt8 k} {l : Bytes} {j : Nat} (h : Cleared l (j + 4) p) {i : Nat} (hi : i = l.length)
    (x : Nat) :
    Returning (w32 p i x) (Cleared (l ++ Firmware.w32 x) j) := by
  refine (store_cleared h hi _).bind fun p h => ?_
  refine (store_cleared h (by rw [hi, List.length_append]; rfl) _).bind fun p h => ?_
  refine (store_cleared h (by rw [hi, List.length_append, List.length_append]; rfl) _).bind fun p h => ?_
  refine (store_cleared h (by rw [hi]; simp) _).mono fun p h => ?_
  simp only [List.append_assoc] at h
  exact h

theorem fill_cleared : Cleared [] k (.fill 0 : Buf UInt8 k) := rfl

theorem statusPayload_returning (hw : Hw) (s : Fw) : Returning (statusPayload hw s) fun p => p.items =
    Firmware.w32 s.boot ++ Firmware.w32 hw.millis ++ [s.rs.toByte, 0, 0, 0] ++ Firmware.w32 s.c.tx ++
      Firmware.w32 s.c.rx ++
      Firmware.w32 s.c.rxBad ++ Firmware.w32 s.c.usbBad ++ Firmware.w32 s.c.radio ++ Firmware.w32 s.c.drops := by
  refine (w32_cleared (j := 32) fill_cleared rfl _).bind fun p h => (w32_cleared (i := 4) h rfl _).bind fun p h => ?_
  refine (store_cleared (i := 8) h rfl _).bind fun p h => ?_
  have hgap : Cleared (Firmware.w32 s.boot ++ Firmware.w32 hw.millis ++ [s.rs.toByte, 0, 0, 0]) 24 p := h
  refine (w32_cleared (i := 12) hgap rfl _).bind fun p h => (w32_cleared (i := 16) h rfl _).bind fun p h => ?_
  refine (w32_cleared (i := 20) h rfl _).bind fun p h => (w32_cleared (i := 24) h rfl _).bind fun p h => ?_
  refine (w32_cleared (i := 28) h rfl _).bind fun p h => (w32_cleared (j := 0) (i := 32) h rfl _).mono fun p h => ?_
  rw [Cleared, List.replicate_zero, List.append_nil] at h
  exact h

theorem diagnosticsPayload_returning (s : Fw) : Returning (diagnosticsPayload s) fun p => p.items =
    Firmware.w32 s.c.usbFrames ++ Firmware.w32 s.c.usbAccepted ++ Firmware.w32 s.c.sendAccepted ++
      Firmware.w32 s.c.txStarted ++ Firmware.w32 s.c.tx ++ Firmware.w32 s.c.rx ++ Firmware.w32 s.c.rxEventQueued ++
      Firmware.w32 s.c.rxEventWritten ++ Firmware.w32 s.c.drops ++ Firmware.w32 s.qn := by
  refine (w32_cleared (j := 36) fill_cleared rfl _).bind fun p h => (w32_cleared (i := 4) h rfl _).bind fun p h => ?_
  refine (w32_cleared (i := 8) h rfl _).bind fun p h => (w32_cleared (i := 12) h rfl _).bind fun p h => ?_
  refine (w32_cleared (i := 16) h rfl _).bind fun p h => (w32_cleared (i := 20) h rfl _).bind fun p h => ?_
  refine (w32_cleared (i := 24) h rfl _).bind fun p h => (w32_cleared (i := 28) h rfl _).bind fun p h => ?_
  refine (w32_cleared (i := 32) h rfl _).bind fun p h => (w32_cleared (j := 0) (i := 36) h rfl _).mono fun p h => ?_
  rw [Cleared, List.replicate_zero, List.append_nil] at h
  exact h

theorem infoPayload_returning (hw : Hw) (s : Fw) : Returning (infoPayload hw s) fun p => p.items =
    (List.range 6).map (fun i => UInt8.ofNat (s.mac / 2 ^ (8 * i))) ++ Firmware.w32 s.boot ++ Firmware.w32 15 ++
      Firmware.w16 AM ++ [if s.ready then 1 else 0, 1] ++ Firmware.w32 hw.millis := by
  have hdevice : Returning ((List.range 6).foldlM (fun p i => p.store i (UInt8.ofNat (s.mac / 2 ^ (8 * i))))
      (.fill 0 : Buf UInt8 22)) (Cleared ((List.range 6).map fun i => UInt8.ofNat (s.mac / 2 ^ (8 * i))) 16) :=
        ⟨_, rfl, rfl⟩
  refine hdevice.bind fun p h => (w32_cleared (i := 6) h rfl _).bind fun p h => ?_
  refine (w32_cleared (i := 10) h rfl _).bind fun p h => (w16_cleared (i := 14) h rfl _).bind fun p h => ?_
  refine (store_cleared (i := 16) h rfl _).bind fun p h => (store_cleared (i := 17) h rfl _).bind fun p h => ?_
  refine (w32_cleared (j := 0) (i := 18) h rfl _).mono fun p h => ?_
  rw [Cleared, List.replicate_zero, List.append_nil] at h
  exact h

theorem take_of_front {b : Buf UInt8 k} {l : Bytes} (h : l <+: b.items) {n : Nat} (hn : l.length = n) :
    b.items.take n = l := by
  rw [← hn]
  exact (List.prefix_iff_eq_take.mp h).symm

theorem eventPayload_returning (hw : Hw) (b : Buf UInt8 AD) {pn : Nat} (hpn : pn ≤ AM) :
    Returning (eventPayload hw b pn) fun p => p.items.take (16 + pn) =
      Firmware.w32 (Firmware.r32 (b.items.drop 6)) ++ Firmware.w32 (Firmware.r32 (b.items.drop 10)) ++
        Firmware.w16 hw.rssi100 ++ Firmware.w16 hw.snr100 ++ Firmware.w32 hw.millis ++ (b.items.drop 16).take pn := by
  have hAD : 16 + pn ≤ AD := by
    simp only [AM, AD] at hpn ⊢
    omega
  have hUM : 16 + pn ≤ UM := hAD.trans (by decide)
  unfold eventPayload
  refine Returning.bind_eq (r32_eq b (by decide)) ((w32_front (i := 0) List.nil_prefix rfl (by decide) _).bind
    fun p h => ?_)
  refine Returning.bind_eq (r32_eq b (by decide)) ?_
  refine (w32_front (i := 4) h rfl (by decide) _).bind fun p h => (w16_front (i := 8) h rfl (by decide) _).bind
    fun p h => ?_
  refine (w16_front (i := 10) h rfl (by decide) _).bind fun p h => ?_
  refine (w32_front (i := 12) h rfl (by decide) _).bind fun p h => ?_
  refine (Buf.memcpy_front h (show 16 = _ from rfl) b 16 hUM hAD).mono fun p h => take_of_front h ?_
  rw [List.length_append, List.length_take, List.length_drop, b.length_items]
  have hmin : min pn (AD - 16) = pn := Nat.min_eq_left (by omega)
  rw [hmin]
  rfl

theorem airPacket_returning (boot air : Nat) (p : Buf UInt8 m) {pn : Nat} (hm : 16 + pn ≤ m) (txPacket : Buf UInt8 AD)
    (hpn : pn ≤ AM) : Returning (airPacket boot air p pn txPacket) fun b =>
      b.items.take (18 + pn) = Firmware.airPacket boot air ((p.items.drop 16).take pn) := by
  have hAD : 18 + pn ≤ AD := by
    simp only [AM, AD] at hpn ⊢
    omega
  have hlength : ((p.items.drop 16).take pn).length = pn := by
    rw [List.length_take, List.length_drop, p.length_items]
    omega
  refine (Buf.store_front (i := 0) List.nil_prefix rfl (by decide) _).bind fun b h => ?_
  refine (Buf.store_front (i := 1) h rfl (by decide) _).bind fun b h => ?_
  refine (Buf.store_front (i := 2) h rfl (by decide) _).bind fun b h => ?_
  refine (Buf.store_front (i := 3) h rfl (by decide) _).bind fun b h => ?_
  refine clear_front (i := 4) (j := 5) h rfl rfl (by decide) fun b h => ?_
  refine (w32_front (i := 6) h rfl (by decide) _).bind fun b h => (w32_front (i := 10) h rfl (by decide) _).bind
    fun b h => ?_
  refine (w16_front (i := 14) h rfl (by decide) _).bind fun b h => ?_
  refine (Buf.memcpy_front h (show 16 = _ from rfl) p 16 (by omega) hm).bind fun b h => ?_
  have hhead : airHead boot air ((p.items.drop 16).take pn) <+: b.items := by
    rw [airHead, hlength]
    exact h
  have hheadLength : (airHead boot air ((p.items.drop 16).take pn)).length = 16 + pn := by
    simp only [airHead, List.length_append, hlength]
    rfl
  rw [crc_eq b (by omega), take_of_front hhead hheadLength]
  refine (w16_front hhead hheadLength.symm (by omega) _).mono fun b h => take_of_front h ?_
  rw [List.length_append, hheadLength]
  show 16 + pn + 2 = 18 + pn
  omega

end LoraLink.Firmware.Ram
