import Mathlib.Data.List.Basic
import Mathlib.Data.Nat.ModEq
import Mathlib.Tactic.Common

/-!
# Ring buffers

A ring buffer is an array of slots with the place of its first entry and the number of entries. `contents` is the list
of the entries, and each operation on the slots is one on that list.

- `contents_push`: an entry is written behind the last one;
- `contents_pop`: the first entry is given up;
- `contents_shift`: an entry is taken out and the later ones move up.
-/

namespace LoraLink

namespace Ring

variable {α : Type} (z : α)

/-- The slot `k` places behind the head. -/
def entry (q : List α) (head k : Nat) : α := q.getD ((head + k) % q.length) z

/-- The first `n` entries. -/
def contents (q : List α) (head n : Nat) : List α := (List.range n).map (entry z q head)

/-- The loop that moves `m` entries up by one place, from `offset` on. -/
def shift (head offset : Nat) (q : List α) (m : Nat) : List α :=
  (List.range m).foldl
    (fun q k => q.set ((head + (offset + k)) % q.length) (entry z q head (offset + k + 1))) q

variable {z} {q : List α} {head n offset : Nat}

theorem length_contents : (contents z q head n).length = n := by
  rw [contents, List.length_map, List.length_range]

theorem getElem?_contents {k : Nat} (hk : k < n) : (contents z q head n)[k]? = some (entry z q head k) := by
  rw [contents, List.getElem?_map, List.getElem?_range hk]
  rfl

/-- The search for an entry, by its place behind the head. -/
theorem findIdx?_contents (p : α → Bool) :
    (contents z q head n).findIdx? p = (List.range n).find? fun k => p (entry z q head k) := by
  rw [contents, List.findIdx?_map]
  cases hfind : (List.range n).find? fun k => p (entry z q head k) with
  | none =>
    have hnone := List.find?_eq_none.mp hfind
    exact List.findIdx?_eq_none_iff.mpr fun k hk => by simpa using hnone k hk
  | some k =>
    obtain ⟨hp, hk, hfirst⟩ := List.find?_range_eq_some.mp hfind
    refine List.findIdx?_eq_some_iff_getElem.mpr ⟨by simpa using hk, ?_, fun j hj => ?_⟩
    · simpa using hp
    · simpa using hfirst j hj

/-- Places behind the head are different slots. -/
theorem place_inj {d i j : Nat} (hi : i < d) (hj : j < d) (h : (head + i) % d = (head + j) % d) : i = j := by
  have hmod : i % d = j % d := Nat.ModEq.add_left_cancel' head h
  rwa [Nat.mod_eq_of_lt hi, Nat.mod_eq_of_lt hj] at hmod

theorem entry_set_self (x : α) {i : Nat} (hi : i < q.length) :
    entry z (q.set ((head + i) % q.length) x) head i = x := by
  have hlt : (head + i) % q.length < q.length := Nat.mod_lt _ (Nat.zero_lt_of_lt hi)
  rw [entry, List.length_set, List.getD_eq_getElem?_getD, List.getElem?_set_self hlt]
  rfl

theorem entry_set_ne (x : α) {i j : Nat} (hi : i < q.length) (hj : j < q.length) (hne : i ≠ j) :
    entry z (q.set ((head + i) % q.length) x) head j = entry z q head j := by
  have hplace : (head + i) % q.length ≠ (head + j) % q.length := fun h => hne (place_inj hi hj h)
  rw [entry, entry, List.length_set, List.getD_eq_getElem?_getD, List.getD_eq_getElem?_getD,
    List.getElem?_set_ne hplace]

/-- An entry is written behind the last one. -/
theorem contents_push (x : α) (hn : n < q.length) :
    contents z (q.set ((head + n) % q.length) x) head (n + 1) = contents z q head n ++ [x] := by
  have hold : ∀ k ∈ List.range n, entry z (q.set ((head + n) % q.length) x) head k = entry z q head k := by
    intro k hk
    have hlt := List.mem_range.mp hk
    exact entry_set_ne x hn (hlt.trans hn) (by omega)
  rw [contents, List.range_succ, List.map_append, List.map_congr_left hold, List.map_singleton, entry_set_self x hn]
  rfl

/-- The first entry is given up. -/
theorem contents_pop : contents z q ((head + 1) % q.length) (n - 1) = (contents z q head n).tail := by
  have hentry : ∀ k, entry z q ((head + 1) % q.length) k = entry z q head (k + 1) := by
    intro k
    rw [entry, entry, Nat.mod_add_mod, Nat.add_assoc, Nat.add_comm 1 k]
  cases n with
  | zero => rfl
  | succ n =>
    rw [contents, contents, List.range_succ_eq_map, List.map_cons, List.map_map, List.tail_cons, Nat.add_sub_cancel]
    exact List.map_congr_left fun k _ => hentry k

theorem length_shift (m : Nat) : (shift z head offset q m).length = q.length := by
  induction m with
  | zero => rfl
  | succ m ih =>
    rw [shift, List.range_succ, List.foldl_append]
    simp only [List.foldl_cons, List.foldl_nil, List.length_set]
    exact ih

/-- After `m` passes the entries from `offset` on have moved up, as far as the loop has come. -/
theorem entry_shift (m : Nat) (hm : offset + m < q.length) {k : Nat} (hk : k < q.length) :
    entry z (shift z head offset q m) head k =
      entry z q head (if offset ≤ k ∧ k < offset + m then k + 1 else k) := by
  induction m generalizing k with
  | zero =>
    rw [if_neg (by omega)]
    rfl
  | succ m ih =>
    have hstep : shift z head offset q (m + 1) = (shift z head offset q m).set
        ((head + (offset + m)) % (shift z head offset q m).length)
        (entry z (shift z head offset q m) head (offset + m + 1)) := by
      rw [shift, List.range_succ, List.foldl_append]
      rfl
    have hlength := @length_shift α z q head offset m
    rw [hstep]
    by_cases heq : k = offset + m
    · subst heq
      rw [entry_set_self _ (by omega), ih (by omega) (by omega), if_neg (by omega), if_pos (by omega)]
    · rw [entry_set_ne _ (by omega) (by omega) (Ne.symm heq), ih (by omega) hk]
      by_cases hin : offset ≤ k ∧ k < offset + m
      · rw [if_pos hin, if_pos (by omega)]
      · rw [if_neg hin, if_neg (by omega)]

/-- An entry is taken out and the later ones move up. -/
theorem contents_shift (hn : n ≤ q.length) (hoffset : offset < n) :
    contents z (shift z head offset q (n - 1 - offset)) head (n - 1) = (contents z q head n).eraseIdx offset := by
  apply List.ext_getElem?
  intro k
  rw [List.getElem?_eraseIdx]
  by_cases hk : k < n - 1
  · rw [getElem?_contents hk, entry_shift (n - 1 - offset) (by omega) (by omega)]
    by_cases hlt : k < offset
    · rw [if_pos hlt, getElem?_contents (by omega), if_neg (by omega)]
    · rw [if_neg hlt, getElem?_contents (by omega), if_pos (by omega)]
  · have hend : (contents z (shift z head offset q (n - 1 - offset)) head (n - 1))[k]? = none := by
      rw [List.getElem?_eq_none_iff, length_contents]
      omega
    rw [hend]
    split
    · omega
    · rw [eq_comm, List.getElem?_eq_none_iff, length_contents]
      omega

end Ring

end LoraLink
