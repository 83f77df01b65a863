import LoraLink.Lib.Bytes

/-!
# Consistent overhead byte stuffing

`stuff` replaces the zero bytes of a string by block lengths: every block is a length code followed by `code - 1`
bytes, and a zero stands between two blocks unless the first has the full length of 254 bytes. `unstuff` reads the
blocks back.

- `unstuff_stuff`: reading back gives the string;
- `stuff_ne_zero`: the result has no zero byte, so a zero can end it on a wire;
- `unstuff_prefix`: a proper prefix of the result is unreadable or reads as a prefix of the string, and as the whole
  string only when a full block of 254 bytes is in it.
-/

namespace LoraLink.Cobs

open LoraLink

/-- The code of a block of the given bytes. -/
def code (blk : Bytes) : UInt8 := UInt8.ofNat (blk.length + 1)

/-- The stuffed form of a string, with `blk` the bytes of the block that is still open. -/
def stuffFrom (blk : Bytes) : Bytes → Bytes
  | [] => code blk :: blk
  | b :: d =>
    if b = 0 then code blk :: blk ++ stuffFrom [] d
    else if blk.length = 253 then code (blk ++ [b]) :: (blk ++ [b]) ++ stuffFrom [] d
    else stuffFrom (blk ++ [b]) d

def stuff (d : Bytes) : Bytes := stuffFrom [] d

/-- Reads blocks: `need` bytes of the current block are still to come, and `sep` says that a zero stands before the
next block. -/
def unstuffFrom : Nat → Bool → Bytes → Option Bytes
  | 0, _, [] => some []
  | _ + 1, _, [] => none
  | need + 1, sep, b :: rest => (unstuffFrom need sep rest).map (b :: ·)
  | 0, sep, c :: rest =>
    if c = 0 then none
    else (unstuffFrom (c.toNat - 1) (c != 255) rest).map (fun r => if sep then 0 :: r else r)

def unstuff (e : Bytes) : Option Bytes := unstuffFrom 0 false e

/-! ## Blocks -/

theorem code_toNat {blk : Bytes} (h : blk.length ≤ 254) : (code blk).toNat = blk.length + 1 := by
  simp only [code, UInt8.toNat_ofNat']
  omega

theorem code_ne_zero {blk : Bytes} (h : blk.length ≤ 254) : code blk ≠ 0 := by
  intro h0
  have := code_toNat h
  rw [h0] at this
  simp at this

/-- Only a block of the full length has the code 255. -/
theorem code_eq_full {blk : Bytes} (h : blk.length ≤ 254) : code blk = 255 ↔ blk.length = 254 := by
  constructor
  · intro h0
    have := code_toNat h
    rw [h0] at this
    simpa using this.symm
  · intro h0
    simp [code, h0]

/-- The bytes of the current block are read as they are. -/
theorem unstuffFrom_block (sep : Bool) (rest : Bytes) : ∀ blk : Bytes,
    unstuffFrom blk.length sep (blk ++ rest) = (unstuffFrom 0 sep rest).map (blk ++ ·)
  | [] => by simp
  | b :: blk => by
    simp only [List.length_cons, List.cons_append, unstuffFrom, unstuffFrom_block sep rest blk, Option.map_map]
    rfl

/-- A string shorter than the current block is cut off. -/
theorem unstuffFrom_short (sep : Bool) : ∀ (p : Bytes) (need : Nat), p.length < need → unstuffFrom need sep p = none
  | [], need + 1, _ => rfl
  | b :: p, need + 1, h => by
    simp only [unstuffFrom, unstuffFrom_short sep p need (by simpa using h), Option.map_none]

/-- One whole block, and what follows it. -/
theorem unstuffFrom_code {blk : Bytes} (h : blk.length ≤ 254) (sep : Bool) (rest : Bytes) :
    unstuffFrom 0 sep (code blk :: blk ++ rest) =
      (unstuffFrom 0 (blk.length != 254) rest).map (fun r => (if sep then [0] else []) ++ blk ++ r) := by
  have hfull : (code blk != 255) = (blk.length != 254) := by
    rw [Bool.eq_iff_iff, bne_iff_ne, bne_iff_ne]
    exact not_congr (code_eq_full h)
  have hneed : (code blk).toNat - 1 = blk.length := by rw [code_toNat h]; omega
  simp only [List.cons_append, unstuffFrom, code_ne_zero h, if_false, hfull, hneed, unstuffFrom_block, Option.map_map]
  congr 1
  funext r
  cases sep <;> simp

/-! ## Round trip -/

theorem unstuffFrom_stuffFrom (d : Bytes) : ∀ (blk : Bytes) (sep : Bool), blk.length ≤ 253 →
    unstuffFrom 0 sep (stuffFrom blk d) = some ((if sep then [0] else []) ++ blk ++ d) := by
  induction d with
  | nil =>
    intro blk sep h
    have hb := @unstuffFrom_code blk (by omega) sep []
    simpa [stuffFrom, unstuffFrom] using hb
  | cons b d ih =>
    intro blk sep h
    simp only [stuffFrom]
    by_cases hb : b = 0
    · have hne : (blk.length != 254) = true := by simp; omega
      rw [if_pos hb, unstuffFrom_code (by omega), hne, ih [] true (by simp)]
      simp [hb]
    · rw [if_neg hb]
      by_cases hl : blk.length = 253
      · have hfull : (blk ++ [b]).length = 254 := by simp [hl]
        rw [if_pos hl, unstuffFrom_code (by omega), hfull, bne_self_eq_false, ih [] false (by simp)]
        simp
      · rw [if_neg hl, ih (blk ++ [b]) sep (by simp; omega)]
        simp

/-- Reading a stuffed string gives the string back. -/
theorem unstuff_stuff (d : Bytes) : unstuff (stuff d) = some d := by
  unfold unstuff stuff
  rw [unstuffFrom_stuffFrom d [] false (by simp)]
  simp

/-! ## The wire -/

theorem stuffFrom_ne_zero (d : Bytes) : ∀ blk : Bytes, blk.length ≤ 253 → (∀ x ∈ blk, x ≠ 0) →
    ∀ x ∈ stuffFrom blk d, x ≠ 0 := by
  induction d with
  | nil =>
    intro blk h hz x hx
    rcases List.mem_cons.mp hx with rfl | hx
    · exact code_ne_zero (by omega)
    · exact hz x hx
  | cons b d ih =>
    intro blk h hz x hx
    have hcons : ∀ y ∈ blk ++ [b], b ≠ 0 → y ≠ 0 := by
      intro y hy hb
      rcases List.mem_append.mp hy with hy | hy
      · exact hz y hy
      · rw [List.mem_singleton.mp hy]; exact hb
    simp only [stuffFrom] at hx
    split at hx
    · rcases List.mem_append.mp hx with hx | hx
      · rcases List.mem_cons.mp hx with rfl | hx
        · exact code_ne_zero (by omega)
        · exact hz x hx
      · exact ih [] (by simp) (by simp) x hx
    · rename_i hb
      split at hx
      · rename_i hl
        rcases List.mem_append.mp hx with hx | hx
        · rcases List.mem_cons.mp hx with rfl | hx
          · exact code_ne_zero (by simp [hl])
          · exact hcons x hx hb
        · exact ih [] (by simp) (by simp) x hx
      · exact ih (blk ++ [b]) (by simp; omega) (fun y hy => hcons y hy hb) x hx

/-- A stuffed string has no zero byte. -/
theorem stuff_ne_zero (d : Bytes) : ∀ x ∈ stuff d, x ≠ 0 := stuffFrom_ne_zero d [] (by simp) (by simp)

theorem stuffFrom_ne_nil (d : Bytes) : ∀ blk : Bytes, stuffFrom blk d ≠ [] := by
  induction d with
  | nil => intro blk; simp [stuffFrom]
  | cons b d ih =>
    intro blk
    simp only [stuffFrom]
    split
    · simp
    · split
      · simp
      · exact ih _

theorem stuff_ne_nil (d : Bytes) : stuff d ≠ [] := stuffFrom_ne_nil d []

theorem length_stuffFrom (d : Bytes) : ∀ blk : Bytes, blk.length ≤ 253 →
    (stuffFrom blk d).length ≤ blk.length + d.length + 1 + (blk.length + d.length) / 254 := by
  induction d with
  | nil => intro blk h; simp [stuffFrom]
  | cons b d ih =>
    intro blk h
    simp only [stuffFrom]
    split
    · have := ih [] (by simp)
      simp at this ⊢; omega
    · split
      · have := ih [] (by simp)
        simp at this ⊢; omega
      · have := ih (blk ++ [b]) (by simp; omega)
        simp at this ⊢; omega

/-- The overhead: one byte, and one more for every 254 bytes. -/
theorem length_stuff (d : Bytes) : (stuff d).length ≤ d.length + 1 + d.length / 254 := by
  unfold stuff
  simpa using length_stuffFrom d [] (by simp)

theorem le_length_stuffFrom (d : Bytes) : ∀ blk : Bytes, blk.length + d.length + 1 ≤ (stuffFrom blk d).length := by
  induction d with
  | nil =>
    intro blk
    simp [stuffFrom]
  | cons b d ih =>
    intro blk
    simp only [stuffFrom]
    split
    · have hrest := ih []
      simp at hrest ⊢
      omega
    · split
      · have hrest := ih []
        simp at hrest ⊢
        omega
      · have hrest := ih (blk ++ [b])
        simp at hrest ⊢
        omega

theorem le_length_stuff (d : Bytes) : d.length + 1 ≤ (stuff d).length := by
  unfold stuff
  simpa using le_length_stuffFrom d []

/-! ## Cut strings -/

/-- A prefix of one block and its continuation: it ends inside the block, or it holds the whole block. -/
theorem prefix_block {c : UInt8} {blk rest p : Bytes} (h : p <+: c :: blk ++ rest) :
    p = [] ∨ (∃ q, p = c :: q ∧ q.length < blk.length) ∨ ∃ q, p = c :: blk ++ q ∧ q <+: rest := by
  cases p with
  | nil => exact Or.inl rfl
  | cons x p =>
    obtain ⟨t, ht⟩ := h
    simp only [List.cons_append, List.cons.injEq] at ht
    obtain ⟨rfl, ht⟩ := ht
    refine Or.inr ?_
    by_cases hl : p.length < blk.length
    · exact Or.inl ⟨p, rfl, hl⟩
    · have htake : p.take blk.length = blk := by
        have := congrArg (List.take blk.length) ht
        rw [List.take_append_of_le_length (by omega)] at this
        simpa using this
      refine Or.inr ⟨p.drop blk.length, ?_, ⟨t, ?_⟩⟩
      · conv_lhs => rw [← List.take_append_drop blk.length p, htake]
        simp
      · have := congrArg (List.drop blk.length) ht
        rw [List.drop_append_of_le_length (by omega)] at this
        simpa using this

/-- What a prefix of one block and its continuation reads as. -/
theorem unstuffFrom_cut {blk rest p r : Bytes} {sep : Bool} (hl : blk.length ≤ 254) (hp : p <+: code blk :: blk ++ rest)
    (hr : unstuffFrom 0 sep p = some r) : r = [] ∨
      ∃ q r', p = code blk :: blk ++ q ∧ q <+: rest ∧ unstuffFrom 0 (blk.length != 254) q = some r' ∧
        r = (if sep then [0] else []) ++ blk ++ r' := by
  rcases prefix_block hp with rfl | ⟨q, rfl, hq⟩ | ⟨q, rfl, hq⟩
  · left; simpa [unstuffFrom] using hr.symm
  · have hneed : (code blk).toNat - 1 = blk.length := by rw [code_toNat hl]; omega
    simp [unstuffFrom, code_ne_zero hl, hneed, unstuffFrom_short _ q _ hq] at hr
  · rw [unstuffFrom_code hl] at hr
    obtain ⟨r', hr', rfl⟩ := Option.map_eq_some_iff.mp hr
    exact Or.inr ⟨q, r', rfl, hq, hr', rfl⟩

theorem unstuffFrom_prefix (d : Bytes) : ∀ (blk p r : Bytes) (sep : Bool), blk.length ≤ 253 →
    p <+: stuffFrom blk d → p ≠ stuffFrom blk d → unstuffFrom 0 sep p = some r →
    r <+: (if sep then [0] else []) ++ blk ++ d ∧
      (r = (if sep then [0] else []) ++ blk ++ d → (sep = false ∧ blk ++ d = []) ∨ 254 ≤ (blk ++ d).length) := by
  induction d with
  | nil =>
    intro blk p r sep h hp hne hr
    simp only [stuffFrom] at hp hne
    rcases @unstuffFrom_cut blk [] p r sep (by omega) (by simpa using hp) hr with rfl | ⟨q, r', rfl, hq, -, -⟩
    · refine ⟨List.nil_prefix, fun he => Or.inl ?_⟩
      cases sep with
      | false => exact ⟨rfl, by simpa using he.symm⟩
      | true => simp at he
    · rw [List.prefix_nil.mp hq] at hne
      simp at hne
  | cons b d ih =>
    intro blk p r sep h hp hne hr
    simp only [stuffFrom] at hp hne
    by_cases hb : b = 0
    · rw [if_pos hb] at hp hne
      rcases unstuffFrom_cut (by omega) hp hr with rfl | ⟨q, r', rfl, hq, hr', rfl⟩
      · exact ⟨List.nil_prefix, fun he => by simp at he⟩
      · have hsep : (blk.length != 254) = true := by simp; omega
        rw [hsep] at hr'
        obtain ⟨hpre, heq⟩ := ih [] q r' true (by simp) hq (fun e => hne (by rw [e])) hr'
        refine ⟨?_, fun he => Or.inr ?_⟩
        · have h0 : r' <+: b :: d := by simpa [hb] using hpre
          exact (List.prefix_append_right_inj _).mpr h0
        · have hrest : r' = b :: d := List.append_cancel_left he
          rcases heq (by simpa [hb] using hrest) with ⟨h0, -⟩ | h0
          · cases h0
          · simp at h0 ⊢; omega
    · rw [if_neg hb] at hp hne
      by_cases hl : blk.length = 253
      · rw [if_pos hl] at hp hne
        have hlen : (blk ++ [b]).length = 254 := by simp [hl]
        rcases unstuffFrom_cut (by omega) hp hr with rfl | ⟨q, r', rfl, hq, hr', rfl⟩
        · exact ⟨List.nil_prefix, fun he => by simp at he⟩
        · rw [hlen, bne_self_eq_false] at hr'
          obtain ⟨hpre, -⟩ := ih [] q r' false (by simp) hq (fun e => hne (by rw [e])) hr'
          refine ⟨?_, fun _ => Or.inr (by simp; omega)⟩
          have h0 := (List.prefix_append_right_inj ((if sep then [0] else []) ++ (blk ++ [b]))).mpr hpre
          simpa using h0
      · rw [if_neg hl] at hp hne
        obtain ⟨hpre, heq⟩ := ih (blk ++ [b]) p r sep (by simp; omega) hp hne hr
        refine ⟨by simpa using hpre, fun he => ?_⟩
        rcases heq (by simpa using he) with ⟨-, h0⟩ | h0
        · simp at h0
        · right; simpa using h0

/-- A proper prefix of a stuffed string reads as a prefix of the string, and as the whole of it only past a full
block. -/
theorem unstuff_prefix {d p r : Bytes} (hd : d ≠ []) (hp : p <+: stuff d) (hne : p ≠ stuff d)
    (hr : unstuff p = some r) : r <+: d ∧ (r = d → 254 ≤ d.length) := by
  obtain ⟨hpre, heq⟩ := unstuffFrom_prefix d [] p r false (by simp) hp hne hr
  refine ⟨by simpa using hpre, fun he => ?_⟩
  rcases heq (by simpa using he) with ⟨-, h0⟩ | h0
  · exact absurd (by simpa using h0) hd
  · simpa using h0

end LoraLink.Cobs
