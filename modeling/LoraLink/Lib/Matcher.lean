import Mathlib.Algebra.Order.Ring.Int
import Mathlib.Data.List.MinMax
import Mathlib.Data.List.Nodup
import Mathlib.Data.Prod.Lex
import Mathlib.Order.OrderDual
import Mathlib.Tactic.Common

/-!
# Matching blocks

`SequenceMatcher` of Python's `difflib`, without junk: of two lists it takes the longest run that both have, the earliest
one in the first list and then in the second, and goes on with what is before the run and with what is behind it.

- `findLongestMatch_longest`, `Longest.unique`: the run that is found is the run just described;
- `matched_collapse`: joining adjacent blocks leaves the number of matched elements as it is;
- `CutsWell`: when these runs cut a list and a sublist of it so that the parts are sublists again; `matched_eq_iff`: that
  is just when the whole sublist is matched; `cutsWell_of_nodup`: always, where no element repeats.
-/

namespace LoraLink.Matcher

open List

variable {α : Type} [DecidableEq α]

structure Block where
  a : Nat
  b : Nat
  size : Nat
deriving DecidableEq, Repr

/-! ## The longest run -/

/-- The length of what two lists begin with in common. -/
def commonPrefix : List α → List α → Nat
  | x :: a, y :: b => if x = y then commonPrefix a b + 1 else 0
  | _, _ => 0

/-- The run from `i` in one list and from `j` in the other: the longer the better, then the earlier. -/
def rank (a b : List α) (place : Nat × Nat) : ℕ ×ₗ ℕᵒᵈ ×ₗ ℕᵒᵈ :=
  toLex (commonPrefix (a.drop place.1) (b.drop place.2), toLex (OrderDual.toDual place.1, OrderDual.toDual place.2))

def findLongestMatch (a b : List α) : Block :=
  match ((List.range (a.length + 1)).product (List.range (b.length + 1))).argmax (rank a b) with
  | some (i, j) => ⟨i, j, commonPrefix (a.drop i) (b.drop j)⟩
  | none => ⟨0, 0, 0⟩

/-- The `size` elements of one list from `a` on are those of the other from `b` on. -/
def Common (a b : List α) (x : Block) : Prop :=
  x.a + x.size ≤ a.length ∧ x.b + x.size ≤ b.length ∧ (a.drop x.a).take x.size = (b.drop x.b).take x.size

/-- A longest run, of these the earliest in the first list, and of these the earliest in the second. -/
structure Longest (a b : List α) (x : Block) : Prop where
  common : Common a b x
  longest : ∀ y, Common a b y → y.size ≤ x.size
  first : ∀ y, Common a b y → y.size = x.size → x.a ≤ y.a
  second : ∀ y, Common a b y → y.size = x.size → y.a = x.a → x.b ≤ y.b

theorem le_commonPrefix {a b : List α} {k : Nat} :
    k ≤ commonPrefix a b ↔ k ≤ a.length ∧ k ≤ b.length ∧ a.take k = b.take k := by
  induction a generalizing b k with
  | nil => cases k <;> simp [commonPrefix]
  | cons x a ih =>
    cases b with
    | nil => cases k <;> simp [commonPrefix]
    | cons y b =>
      cases k with
      | zero => simp
      | succ k =>
        rw [commonPrefix]
        split
        · rename_i heq
          simp [heq, ih]
        · rename_i hne
          simp [hne]

theorem common_iff {a b : List α} {x : Block} : Common a b x ↔
    x.a ≤ a.length ∧ x.b ≤ b.length ∧ x.size ≤ commonPrefix (a.drop x.a) (b.drop x.b) := by
  rw [le_commonPrefix, List.length_drop, List.length_drop, Common]
  constructor
  · rintro ⟨ha, hb, heq⟩
    exact ⟨by omega, by omega, by omega, by omega, heq⟩
  · rintro ⟨ha, hb, hka, hkb, heq⟩
    exact ⟨by omega, by omega, heq⟩

theorem findLongestMatch_longest (a b : List α) : Longest a b (findLongestMatch a b) := by
  have hmem : ∀ {i j : Nat}, (i, j) ∈ (List.range (a.length + 1)).product (List.range (b.length + 1)) ↔
      i ≤ a.length ∧ j ≤ b.length := by
    intro i j
    simp only [List.pair_mem_product, List.mem_range, Nat.lt_succ_iff]
  unfold findLongestMatch
  cases hmax : ((List.range (a.length + 1)).product (List.range (b.length + 1))).argmax (rank a b) with
  | none =>
    have hzero := hmem.mpr ⟨Nat.zero_le a.length, Nat.zero_le b.length⟩
    rw [List.argmax_eq_none.mp hmax] at hzero
    exact absurd hzero List.not_mem_nil
  | some place =>
    obtain ⟨i, j⟩ := place
    obtain ⟨hi, hj⟩ := hmem.mp (List.argmax_mem hmax)
    have hbest : ∀ y, Common a b y → y.size ≤ commonPrefix (a.drop y.a) (b.drop y.b) ∧
        (commonPrefix (a.drop y.a) (b.drop y.b) < commonPrefix (a.drop i) (b.drop j) ∨
          commonPrefix (a.drop y.a) (b.drop y.b) = commonPrefix (a.drop i) (b.drop j) ∧
            (i < y.a ∨ y.a = i ∧ j ≤ y.b)) := by
      intro y hy
      obtain ⟨hya, hyb, hsize⟩ := common_iff.mp hy
      have hrank := List.le_of_mem_argmax (hmem.mpr ⟨hya, hyb⟩) hmax
      rw [rank, rank, Prod.Lex.toLex_le_toLex, Prod.Lex.toLex_le_toLex] at hrank
      exact ⟨hsize, hrank⟩
    refine ⟨common_iff.mpr ⟨hi, hj, Nat.le_refl _⟩, fun y hy => ?_, fun y hy hsize => ?_, fun y hy hsize ha => ?_⟩
    · obtain ⟨hsize, hbest⟩ := hbest y hy
      simp only
      omega
    · obtain ⟨hsize', hbest⟩ := hbest y hy
      simp only at hsize ⊢
      omega
    · obtain ⟨hsize', hbest⟩ := hbest y hy
      simp only at hsize ha ⊢
      omega

omit [DecidableEq α] in
theorem Longest.unique {a b : List α} {x y : Block} (hx : Longest a b x) (hy : Longest a b y) : x = y := by
  have hsize : x.size = y.size := Nat.le_antisymm (hy.longest x hx.common) (hx.longest y hy.common)
  have ha : x.a = y.a := Nat.le_antisymm (hx.first y hy.common hsize.symm) (hy.first x hx.common hsize)
  have hb : x.b = y.b :=
    Nat.le_antisymm (hx.second y hy.common hsize.symm ha.symm) (hy.second x hx.common hsize ha)
  obtain ⟨_, _, _⟩ := x
  obtain ⟨_, _, _⟩ := y
  simp only at hsize ha hb
  rw [ha, hb, hsize]

/-! ## The blocks -/

def Block.shift (i j : Nat) (x : Block) : Block := ⟨x.a + i, x.b + j, x.size⟩

/-- The blocks in their order; a longest run has an element at least, so the length of the first list is fuel enough. -/
def blocks : Nat → List α → List α → List Block
  | 0, _, _ => []
  | fuel + 1, a, b =>
    let x := findLongestMatch a b
    if x.size = 0 then []
    else
      blocks fuel (a.take x.a) (b.take x.b) ++
        x :: (blocks fuel (a.drop (x.a + x.size)) (b.drop (x.b + x.size))).map (Block.shift (x.a + x.size) (x.b + x.size))

/-- A block that begins where the one before it ends in both lists is joined to it. -/
def collapse (x : Block) : List Block → List Block
  | [] => if x.size = 0 then [] else [x]
  | y :: ys =>
    if x.a + x.size = y.a ∧ x.b + x.size = y.b then collapse ⟨x.a, x.b, x.size + y.size⟩ ys
    else (if x.size = 0 then [] else [x]) ++ collapse y ys

def getMatchingBlocks (a b : List α) : List Block :=
  collapse ⟨0, 0, 0⟩ (blocks a.length a b) ++ [⟨a.length, b.length, 0⟩]

/-- The number of matched elements. -/
def matched (xs : List Block) : Nat := (xs.map Block.size).sum

@[simp] theorem matched_nil : matched [] = 0 := rfl

@[simp] theorem matched_cons (x : Block) (xs : List Block) : matched (x :: xs) = x.size + matched xs := rfl

@[simp] theorem matched_append (xs ys : List Block) : matched (xs ++ ys) = matched xs + matched ys := by
  simp [matched]

@[simp] theorem matched_shift (i j : Nat) (xs : List Block) : matched (xs.map (Block.shift i j)) = matched xs := by
  simp [matched, Function.comp_def, Block.shift]

theorem matched_collapse (x : Block) (ys : List Block) : matched (collapse x ys) = x.size + matched ys := by
  induction ys generalizing x with
  | nil =>
    unfold collapse
    split
    · rename_i hzero
      rw [hzero]
      rfl
    · rfl
  | cons y ys ih =>
    unfold collapse
    split
    · rw [ih, matched_cons, Nat.add_assoc]
    · split
      · rename_i hzero
        rw [hzero, matched_append, ih]
        rfl
      · rw [matched_append, ih]
        rfl

theorem matched_getMatchingBlocks (a b : List α) : matched (getMatchingBlocks a b) = matched (blocks a.length a b) := by
  simp [getMatchingBlocks, matched_collapse]

section Blocks

variable {a b : List α} {fuel : Nat}

theorem matched_blocks_succ (h : (findLongestMatch a b).size ≠ 0) : matched (blocks (fuel + 1) a b) =
    matched (blocks fuel (a.take (findLongestMatch a b).a) (b.take (findLongestMatch a b).b)) +
      ((findLongestMatch a b).size +
        matched (blocks fuel (a.drop ((findLongestMatch a b).a + (findLongestMatch a b).size))
          (b.drop ((findLongestMatch a b).b + (findLongestMatch a b).size)))) := by
  simp only [blocks, h, if_false, matched_append, matched_cons, matched_shift]

/-- No element of the second list is matched twice. -/
theorem matched_le : matched (blocks fuel a b) ≤ b.length := by
  induction fuel generalizing a b with
  | zero => exact Nat.zero_le _
  | succ fuel ih =>
    by_cases hzero : (findLongestMatch a b).size = 0
    · simp only [blocks, hzero, if_true]
      exact Nat.zero_le _
    · have hcommon := (findLongestMatch_longest a b).common.2.1
      have hfront := @ih (a.take (findLongestMatch a b).a) (b.take (findLongestMatch a b).b)
      have hback := @ih (a.drop ((findLongestMatch a b).a + (findLongestMatch a b).size))
        (b.drop ((findLongestMatch a b).b + (findLongestMatch a b).size))
      rw [matched_blocks_succ hzero]
      simp only [List.length_take, List.length_drop] at hfront hback
      omega

/-- All of the second list is matched when all before the run is, and all behind it. -/
theorem matched_eq_length_succ (h : (findLongestMatch a b).size ≠ 0) : matched (blocks (fuel + 1) a b) = b.length ↔
    matched (blocks fuel (a.take (findLongestMatch a b).a) (b.take (findLongestMatch a b).b)) =
        (b.take (findLongestMatch a b).b).length ∧
      matched (blocks fuel (a.drop ((findLongestMatch a b).a + (findLongestMatch a b).size))
          (b.drop ((findLongestMatch a b).b + (findLongestMatch a b).size))) =
        (b.drop ((findLongestMatch a b).b + (findLongestMatch a b).size)).length := by
  have hcommon := (findLongestMatch_longest a b).common.2.1
  have hfront := @matched_le α _ (a.take (findLongestMatch a b).a) (b.take (findLongestMatch a b).b) fuel
  have hback := @matched_le α _ (a.drop ((findLongestMatch a b).a + (findLongestMatch a b).size))
    (b.drop ((findLongestMatch a b).b + (findLongestMatch a b).size)) fuel
  rw [matched_blocks_succ h]
  simp only [List.length_take, List.length_drop] at hfront hback ⊢
  omega

end Blocks

/-! ## Sublists that are matched as a whole -/

/-- The longest runs cut two lists, of which one has lost elements of the other, into parts of which the same holds. -/
inductive CutsWell : List α → List α → Prop
  | nothing (a : List α) : CutsWell a []
  | cut {a b : List α} {x : Block} (hb : b ≠ []) (hx : Longest a b x)
      (hfront : (b.take x.b).Sublist (a.take x.a)) (hback : (b.drop (x.b + x.size)).Sublist (a.drop (x.a + x.size)))
      (front : CutsWell (a.take x.a) (b.take x.b)) (back : CutsWell (a.drop (x.a + x.size)) (b.drop (x.b + x.size))) :
      CutsWell a b

omit [DecidableEq α] in
theorem split_three (l : List α) (i k : Nat) : l = l.take i ++ ((l.drop i).take k ++ l.drop (i + k)) := by
  rw [← List.drop_drop, List.take_append_drop, List.take_append_drop]

omit [DecidableEq α] in
/-- Parts that are sublists, around a common run. -/
theorem Common.sublist {a b : List α} {x : Block} (h : Common a b x) (hfront : (b.take x.b).Sublist (a.take x.a))
    (hback : (b.drop (x.b + x.size)).Sublist (a.drop (x.a + x.size))) : b.Sublist a := by
  rw [split_three a x.a x.size, split_three b x.b x.size, h.2.2]
  exact hfront.append ((List.Sublist.refl _).append hback)

/-- A sublist that is not empty has a run in common with the list. -/
theorem size_pos {a b : List α} (hb : b ≠ []) (h : b.Sublist a) : 0 < (findLongestMatch a b).size := by
  obtain ⟨y, b, rfl⟩ := List.exists_cons_of_ne_nil hb
  obtain ⟨i, hi, hget⟩ := List.getElem_of_mem (h.subset List.mem_cons_self)
  have hcommon : Common a (y :: b) ⟨i, 0, 1⟩ := by
    refine ⟨hi, Nat.succ_le_succ (Nat.zero_le _), ?_⟩
    simp only [List.drop_zero, List.take_succ_cons, List.take_zero, List.drop_eq_getElem_cons hi, hget]
  exact (findLongestMatch_longest a (y :: b)).longest _ hcommon

/-- A list that is matched as a whole is a sublist. -/
theorem sublist_of_matched {fuel : Nat} : ∀ {a b : List α}, matched (blocks fuel a b) = b.length → b.Sublist a := by
  induction fuel with
  | zero =>
    intro a b h
    rw [List.eq_nil_of_length_eq_zero h.symm]
    exact List.nil_sublist a
  | succ fuel ih =>
    intro a b h
    by_cases hzero : (findLongestMatch a b).size = 0
    · simp only [blocks, hzero, if_true, matched_nil] at h
      rw [List.eq_nil_of_length_eq_zero h.symm]
      exact List.nil_sublist a
    · obtain ⟨hfront, hback⟩ := (matched_eq_length_succ hzero).mp h
      exact (findLongestMatch_longest a b).common.sublist (ih hfront) (ih hback)

theorem cutsWell_of_matched {fuel : Nat} : ∀ {a b : List α}, matched (blocks fuel a b) = b.length → CutsWell a b := by
  induction fuel with
  | zero =>
    intro a b h
    rw [List.eq_nil_of_length_eq_zero h.symm]
    exact .nothing a
  | succ fuel ih =>
    intro a b h
    obtain rfl | hb := eq_or_ne b []
    · exact .nothing a
    have hpos := size_pos hb (sublist_of_matched h)
    obtain ⟨hfront, hback⟩ := (matched_eq_length_succ (Nat.ne_of_gt hpos)).mp h
    exact .cut hb (findLongestMatch_longest a b) (sublist_of_matched hfront) (sublist_of_matched hback) (ih hfront)
      (ih hback)

theorem CutsWell.matched {a b : List α} (h : CutsWell a b) : ∀ {fuel : Nat}, a.length ≤ fuel →
    matched (blocks fuel a b) = b.length := by
  induction h with
  | nothing a =>
    intro fuel _
    exact Nat.le_zero.mp matched_le
  | @cut a b x hb hx hfront hback _ _ ihFront ihBack =>
    intro fuel hfuel
    have hpos := size_pos hb (hx.common.sublist hfront hback)
    obtain rfl := hx.unique (findLongestMatch_longest a b)
    have hcommon := hx.common.1
    obtain ⟨fuel, rfl⟩ := Nat.exists_eq_succ_of_ne_zero (by omega : fuel ≠ 0)
    refine (matched_eq_length_succ (Nat.ne_of_gt hpos)).mpr ⟨ihFront ?_, ihBack ?_⟩
    · rw [List.length_take]
      omega
    · rw [List.length_drop]
      omega

/-- A list is matched as a whole just when the longest runs cut it well. -/
theorem matched_eq_iff {a b : List α} : matched (getMatchingBlocks a b) = b.length ↔ CutsWell a b := by
  rw [matched_getMatchingBlocks]
  exact ⟨cutsWell_of_matched, fun h => h.matched (Nat.le_refl _)⟩

/-! ## Lists without duplicates -/

omit [DecidableEq α] in
/-- An element that stands once only stands at one place. -/
theorem sublist_split {b₁ b₂ a₁ a₂ : List α} {x : α} (hnodup : (a₁ ++ x :: a₂).Nodup)
    (h : (b₁ ++ x :: b₂).Sublist (a₁ ++ x :: a₂)) : b₁.Sublist a₁ ∧ b₂.Sublist a₂ := by
  obtain ⟨r₁, r₂, hr, hfront, hrest⟩ := List.append_sublist_iff.mp h
  obtain ⟨s, t, rfl, hx, hback⟩ := List.cons_sublist_iff.mp hrest
  obtain ⟨u, v, rfl⟩ := List.append_of_mem hx
  have hunique := (List.nodup_cons.mp (List.nodup_middle.mp hnodup)).1
  rw [List.mem_append, not_or] at hunique
  have heq : a₁ ++ x :: a₂ = (r₁ ++ u) ++ x :: (v ++ t) := by
    rw [hr]
    simp only [List.append_assoc, List.cons_append]
  obtain ⟨rfl, -, rfl⟩ := (List.append_cons_inj_of_notMem hunique.1 hunique.2).mp heq
  exact ⟨hfront.trans (List.sublist_append_left ..), hback.trans (List.sublist_append_right ..)⟩

/-- In a list without duplicates the runs cut well whatever is lost. -/
theorem cutsWell_of_nodup {n : Nat} : ∀ {a b : List α}, a.length ≤ n → a.Nodup → b.Sublist a → CutsWell a b := by
  induction n with
  | zero =>
    intro a b hn _ h
    obtain rfl := List.eq_nil_of_length_eq_zero (Nat.le_zero.mp (h.length_le.trans hn))
    exact .nothing a
  | succ n ih =>
    intro a b hn hnodup h
    obtain rfl | hb := eq_or_ne b []
    · exact .nothing a
    have hlongest := findLongestMatch_longest a b
    have hpos := size_pos hb h
    generalize findLongestMatch a b = x at hlongest hpos
    have ha := split_three a x.a x.size
    have hb' := split_three b x.b x.size
    obtain ⟨hfits, -, hrun⟩ := hlongest.common
    rw [← hrun] at hb'
    obtain ⟨y, run, hcons⟩ : ∃ y run, (a.drop x.a).take x.size = y :: run := by
      refine List.exists_cons_of_length_pos ?_
      simp only [List.length_take, List.length_drop]
      omega
    rw [hcons] at ha hb'
    rw [ha, hb'] at h
    obtain ⟨hfront, hback⟩ := sublist_split (ha ▸ hnodup) h
    have hback := (List.append_sublist_append_left run).mp hback
    refine .cut hb hlongest hfront hback (ih ?_ (hnodup.sublist (List.take_sublist ..)) hfront)
      (ih ?_ (hnodup.sublist (List.drop_sublist ..)) hback)
    · rw [List.length_take]
      omega
    · rw [List.length_drop]
      omega

end LoraLink.Matcher
