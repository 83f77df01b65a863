import Mathlib.Data.List.Basic
import Mathlib.Tactic.Common

/-!
# Ordered dictionaries

A dictionary that remembers the order in which its keys came is a list of pairs of a key and a value.
-/

namespace LoraLink

variable {K α : Type} [DecidableEq K]

/-- `dict[key] = value`. -/
def setKey (l : List (K × α)) (key : K) (value : α) : List (K × α) :=
  if (l.lookup key).isSome then l.map fun p => if p.1 = key then (key, value) else p else l ++ [(key, value)]

/-- `dict.pop(key)`. -/
def popKey (l : List (K × α)) (key : K) : List (K × α) := l.filter fun p => p.1 ≠ key

theorem mem_of_mem_popKey {l : List (K × α)} {key : K} {p : K × α} (h : p ∈ popKey l key) : p ∈ l :=
  (List.mem_filter.mp h).1

theorem mem_of_mem_setKey {l : List (K × α)} {key : K} {value : α} {p : K × α} (h : p ∈ setKey l key value) :
    p = (key, value) ∨ p ∈ l := by
  unfold setKey at h
  split at h
  · obtain ⟨q, hq, rfl⟩ := List.mem_map.mp h
    split
    · exact Or.inl rfl
    · exact Or.inr hq
  · rcases List.mem_append.mp h with h | h
    · exact Or.inr h
    · exact Or.inl (List.mem_singleton.mp h)

theorem mem_of_lookup {J : Type} [BEq J] [LawfulBEq J] {l : List (J × α)} {key : J} {value : α}
    (h : l.lookup key = some value) : (key, value) ∈ l := by
  induction l with
  | nil => cases h
  | cons p l ih =>
    rw [List.lookup_cons] at h
    split at h
    · rename_i heq
      obtain rfl : key = p.1 := by simpa using heq
      obtain rfl : p.2 = value := by simpa using h
      exact List.mem_cons_self
    · exact List.mem_cons_of_mem _ (ih h)

/-! ## What is looked up -/

section Lookup

variable {J : Type} [BEq J] [LawfulBEq J]

theorem lookup_eq_none {l : List (J × α)} {key : J} : l.lookup key = none ↔ key ∉ l.map Prod.fst := by
  induction l with
  | nil => simp
  | cons p l ih =>
    rw [List.lookup_cons, List.map_cons, List.mem_cons, not_or]
    split
    · rename_i heq
      simp [eq_of_beq heq]
    · rename_i hne
      have hkey : key ≠ p.1 := by simpa using hne
      simp [hkey, ih]

/-- A key that occurs once is looked up where it stands. -/
theorem lookup_of_mem {l : List (J × α)} (hkeys : (l.map Prod.fst).Nodup) {key : J} {value : α}
    (h : (key, value) ∈ l) : l.lookup key = some value := by
  induction l with
  | nil => cases h
  | cons p l ih =>
    obtain ⟨hnew, hrest⟩ := List.nodup_cons.mp hkeys
    rw [List.lookup_cons]
    rcases List.mem_cons.mp h with rfl | h
    · simp
    · have hne : key ≠ p.1 := fun heq => hnew (heq ▸ List.mem_map_of_mem h)
      have hbeq : (key == p.1) = false := by simpa using hne
      rw [hbeq]
      exact ih hrest h

theorem lookup_append {J : Type} [BEq J] (l l' : List (J × α)) (key : J) :
    (l ++ l').lookup key = (l.lookup key).or (l'.lookup key) := by
  induction l with
  | nil => simp
  | cons p l ih =>
    rw [List.cons_append, List.lookup_cons, List.lookup_cons]
    split
    · rfl
    · exact ih

end Lookup

theorem keys_popKey (l : List (K × α)) (key : K) : (popKey l key).map Prod.fst = (l.map Prod.fst).filter (· ≠ key) := by
  rw [popKey, List.filter_map]
  rfl

theorem nodup_popKey {l : List (K × α)} (h : (l.map Prod.fst).Nodup) (key : K) :
    ((popKey l key).map Prod.fst).Nodup := by
  rw [keys_popKey]
  exact h.filter _

theorem setKey_of_not_mem {l : List (K × α)} {key : K} (h : key ∉ l.map Prod.fst) (value : α) :
    setKey l key value = l ++ [(key, value)] := by
  rw [setKey, lookup_eq_none.mpr h]
  rfl

theorem setKey_of_mem {l : List (K × α)} {key : K} (h : key ∈ l.map Prod.fst) (value : α) :
    setKey l key value = l.map fun p => if p.1 = key then (key, value) else p := by
  rw [setKey, if_pos]
  apply Option.isSome_iff_ne_none.mpr
  intro hnone
  exact lookup_eq_none.mp hnone h

/-- An entry that is removed need not have been set. -/
theorem popKey_setKey (l : List (K × α)) (key : K) (value : α) : popKey (setKey l key value) key = popKey l key := by
  have hmap : popKey (l.map fun p => if p.1 = key then (key, value) else p) key = popKey l key := by
    unfold popKey
    induction l with
    | nil => rfl
    | cons p l ih => by_cases hp : p.1 = key <;> simpa [hp] using ih
  unfold setKey
  split
  · exact hmap
  · simp [popKey]

/-- Another entry is replaced. -/
theorem setKey_other {A B : List (K × α)} {key key' : K} {v : α} (hne : key ≠ key')
    (h : key' ∈ (A ++ (key, v) :: B).map Prod.fst) (value : α) :
    ∃ A' B', setKey (A ++ (key, v) :: B) key' value = A' ++ (key, v) :: B' ∧ B'.length = B.length := by
  refine ⟨A.map fun p => if p.1 = key' then (key', value) else p, B.map fun p => if p.1 = key' then (key', value) else p,
    ?_, List.length_map _⟩
  rw [setKey_of_mem h, List.map_append, List.map_cons, if_neg hne]

/-- The entry itself is replaced. -/
theorem setKey_here {A B : List (K × α)} {key : K} {v : α} (h : ((A ++ (key, v) :: B).map Prod.fst).Nodup) (value : α) :
    setKey (A ++ (key, v) :: B) key value = A ++ (key, value) :: B := by
  have hout : ∀ p ∈ A ++ B, p.1 ≠ key := by
    rw [List.map_append, List.map_cons] at h
    obtain ⟨-, hB, hAB⟩ := List.nodup_append.mp h
    rintro p hp rfl
    rcases List.mem_append.mp hp with hp | hp
    · exact hAB _ (List.mem_map_of_mem hp) _ List.mem_cons_self rfl
    · exact (List.nodup_cons.mp hB).1 (List.mem_map.mpr ⟨p, hp, rfl⟩)
  have hsame : ∀ C : List (K × α), (∀ p ∈ C, p ∈ A ++ B) →
      (C.map fun p => if p.1 = key then (key, value) else p) = C := by
    intro C hC
    conv_rhs => rw [← List.map_id C]
    exact List.map_congr_left fun p hp => if_neg (hout p (hC p hp))
  rw [setKey_of_mem (by simp), List.map_append, List.map_cons, if_pos rfl,
    hsame A fun p hp => List.mem_append_left _ hp, hsame B fun p hp => List.mem_append_right _ hp]

section Updates

variable [BEq K] [LawfulBEq K]

theorem lookup_popKey_self (l : List (K × α)) (key : K) : (popKey l key).lookup key = none := by
  rw [lookup_eq_none, keys_popKey]
  simp

theorem lookup_popKey_ne (l : List (K × α)) {key key' : K} (h : key ≠ key') :
    (popKey l key').lookup key = l.lookup key := by
  induction l with
  | nil => rfl
  | cons p l ih =>
    rw [popKey, List.filter_cons]
    rw [popKey] at ih
    by_cases hp : p.1 = key'
    · have hbeq : (key == p.1) = false := by simpa [hp] using h
      rw [if_neg (by simpa using hp), List.lookup_cons, hbeq]
      exact ih
    · rw [if_pos (by simpa using hp), List.lookup_cons, List.lookup_cons, ih]

theorem setKey_new {l : List (K × α)} {key : K} (h : l.lookup key = none) (value : α) :
    setKey l key value = l ++ [(key, value)] := setKey_of_not_mem (lookup_eq_none.mp h) value

theorem setKey_old {l : List (K × α)} {key : K} (h : l.lookup key ≠ none) (value : α) :
    setKey l key value = l.map fun p => if p.1 = key then (key, value) else p := by
  refine setKey_of_mem ?_ value
  by_contra hkey
  exact h (lookup_eq_none.mpr hkey)

theorem keys_setKey {l : List (K × α)} {key : K} (h : l.lookup key ≠ none) (value : α) :
    (setKey l key value).map Prod.fst = l.map Prod.fst := by
  rw [setKey_old h, List.map_map]
  apply List.map_congr_left
  intro p _
  simp only [Function.comp_apply]
  split
  · rename_i hp
    exact hp.symm
  · rfl

theorem nodup_setKey {l : List (K × α)} (h : (l.map Prod.fst).Nodup) (key : K) (value : α) :
    ((setKey l key value).map Prod.fst).Nodup := by
  by_cases hkey : l.lookup key = none
  · rw [setKey_new hkey, List.map_append, List.nodup_append]
    refine ⟨h, by simp, fun k hk k' hk' heq => ?_⟩
    rw [List.map_singleton, List.mem_singleton] at hk'
    rw [heq, hk'] at hk
    exact lookup_eq_none.mp hkey hk
  · rw [keys_setKey hkey]
    exact h

theorem lookup_map_ne {key key' : K} (h : key ≠ key') (value : α) (l : List (K × α)) :
    (l.map fun p => if p.1 = key' then (key', value) else p).lookup key = l.lookup key := by
  have hbeq : (key == key') = false := by simpa using h
  induction l with
  | nil => rfl
  | cons p l ih =>
    rw [List.map_cons, List.lookup_cons, List.lookup_cons, ih]
    by_cases hp : p.1 = key'
    · rw [if_pos hp, hp, hbeq]
    · rw [if_neg hp]

theorem lookup_map_self {l : List (K × α)} {key : K} (h : key ∈ l.map Prod.fst) (value : α) :
    (l.map fun p => if p.1 = key then (key, value) else p).lookup key = some value := by
  induction l with
  | nil => cases h
  | cons p l ih =>
    rw [List.map_cons, List.lookup_cons]
    by_cases hp : p.1 = key
    · rw [if_pos hp]
      simp
    · have hbeq : (key == p.1) = false := by simpa using Ne.symm hp
      rw [if_neg hp, hbeq]
      rcases List.mem_cons.mp h with heq | h
      · exact absurd heq.symm hp
      · exact ih h

theorem lookup_setKey_self (l : List (K × α)) (key : K) (value : α) : (setKey l key value).lookup key = some value := by
  by_cases h : key ∈ l.map Prod.fst
  · rw [setKey_of_mem h]
    exact lookup_map_self h value
  · rw [setKey_of_not_mem h, lookup_append, lookup_eq_none.mpr h]
    simp

theorem lookup_setKey_ne (l : List (K × α)) {key key' : K} (h : key ≠ key') (value : α) :
    (setKey l key' value).lookup key = l.lookup key := by
  have hbeq : (key == key') = false := by simpa using h
  unfold setKey
  split
  · exact lookup_map_ne h value l
  · rw [lookup_append, List.lookup_cons, hbeq]
    simp

end Updates

/-! ## Loops over the entries -/

/-- A loop over the entries of a dictionary whose body for a key changes only what is seen of that key: each key sees
its own pass. -/
theorem foldl_view {S V W : Type} (view : K → S → W) (body : S → K × V → S) (fits : K × V → W → Prop)
    (pass : K × V → W → W) (hbody : ∀ s p, fits p (view p.1 s) →
      ∀ key, view key (body s p) = if key = p.1 then pass p (view key s) else view key s) :
    ∀ (l : List (K × V)) (s : S), (l.map Prod.fst).Nodup → (∀ p ∈ l, fits p (view p.1 s)) →
      (∀ p ∈ l, view p.1 (l.foldl body s) = pass p (view p.1 s)) ∧
        ∀ key ∉ l.map Prod.fst, view key (l.foldl body s) = view key s := by
  intro l
  induction l with
  | nil => exact fun s _ _ => ⟨by simp, fun _ _ => rfl⟩
  | cons p l ih =>
    intro s hnodup hfits
    obtain ⟨hnew, hrest⟩ := List.nodup_cons.mp hnodup
    have hfirst := hbody s p (hfits p List.mem_cons_self)
    have hother : ∀ key, key ≠ p.1 → view key (body s p) = view key s := fun key hne => by rw [hfirst, if_neg hne]
    have hne : ∀ q ∈ l, q.1 ≠ p.1 := fun q hq heq => hnew (heq ▸ List.mem_map_of_mem hq)
    obtain ⟨hmem, hout⟩ := ih (body s p) hrest fun q hq => by
      rw [hother q.1 (hne q hq)]
      exact hfits q (List.mem_cons_of_mem _ hq)
    constructor
    · intro q hq
      rcases List.mem_cons.mp hq with rfl | hq
      · rw [List.foldl_cons, hout q.1 hnew, hfirst, if_pos rfl]
      · rw [List.foldl_cons, hmem q hq, hother q.1 (hne q hq)]
    · intro key hkey
      rw [List.map_cons, List.mem_cons, not_or] at hkey
      rw [List.foldl_cons, hout key hkey.2, hother key hkey.1]

/-! ## The newest entries of a dictionary -/

section Newest

variable {J : Type} {l : List (J × α)} {key : J} {value : α} {n bound : Nat}

/-- The entry of `key` has at most `n` entries behind it. -/
def Recent (l : List (J × α)) (key : J) (value : α) (n : Nat) : Prop :=
  ∃ A B, l = A ++ (key, value) :: B ∧ key ∉ A.map Prod.fst ∧ B.length ≤ n

theorem Recent.lookup [BEq J] [LawfulBEq J] (h : Recent l key value n) : l.lookup key = some value := by
  obtain ⟨A, B, rfl, hnew, -⟩ := h
  rw [lookup_append, lookup_eq_none.mpr hnew, List.lookup_cons]
  simp

theorem Recent.mono {m : Nat} (h : Recent l key value n) (hnm : n ≤ m) : Recent l key value m := by
  obtain ⟨A, B, hl, hnew, hB⟩ := h
  exact ⟨A, B, hl, hnew, Nat.le_trans hB hnm⟩

/-- Entries behind it do not push it out while there are few. -/
theorem Recent.push (h : Recent l key value n) (hn : n + 1 < bound) (p : J × α) :
    Recent ((l ++ [p]).drop ((l ++ [p]).length - bound)) key value (n + 1) := by
  obtain ⟨A, B, rfl, hnew, hB⟩ := h
  have hlength : ((A ++ (key, value) :: B) ++ [p]).length - bound ≤ A.length := by
    simp only [List.length_append, List.length_cons, List.length_nil]
    omega
  refine ⟨A.drop (((A ++ (key, value) :: B) ++ [p]).length - bound), B ++ [p], ?_, fun hmem => ?_, ?_⟩
  · rw [List.append_assoc, List.drop_append_of_le_length (by rwa [List.append_assoc] at hlength)]
    rfl
  · exact hnew (((List.drop_sublist _ _).map _).subset hmem)
  · rw [List.length_append, List.length_singleton]
    omega

/-- A new entry is the last. -/
theorem recent_last [BEq J] [LawfulBEq J] (hnew : l.lookup key = none) (value : α) (hbound : 0 < bound) :
    Recent ((l ++ [(key, value)]).drop ((l ++ [(key, value)]).length - bound)) key value 0 := by
  refine ⟨l.drop ((l ++ [(key, value)]).length - bound), [], ?_, fun hmem => ?_, Nat.le_refl _⟩
  · rw [List.drop_append_of_le_length]
    rw [List.length_append, List.length_singleton]
    omega
  · exact lookup_eq_none.mp hnew (((List.drop_sublist _ _).map _).subset hmem)

end Newest

end LoraLink
