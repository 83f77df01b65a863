import LoraLink.Lib.Bytes

/-!
# Files of records

A format begins every record with a header of a fixed size, which says how long the body is. A reader reads header and
body until the file ends: between two records that is the end, inside a header or a body it is an error.

- `read_take`: what a reader makes of the first `k` bytes of a file (`Cut`): the records that end within them
  (`Cut.whole`), and an error unless one of them ends there (`Cut.boundary`);
- `read_encode`: a whole file is read back.
-/

namespace LoraLink.Records

/-- How the records of a format begin, and what a file that ends inside one is refused with. -/
structure Format (α E : Type) where
  size : Nat
  parse : Bytes → Except E (α × Nat)
  shortHeader : E
  shortBody : E

variable {α E : Type} (f : Format α E)

/-- The records, and the error that ends the reading. -/
def read : Nat → Bytes → List (α × Bytes) × Option E
  | 0, _ => ([], none)
  | fuel + 1, source =>
    let header := source.take f.size
    let source := source.drop f.size
    if header = [] then ([], none)
    else if header.length ≠ f.size then ([], some f.shortHeader)
    else
      match f.parse header with
      | .error e => ([], some e)
      | .ok (a, length) =>
        let raw := source.take length
        if raw.length ≠ length then ([], some f.shortBody)
        else
          let (records, e) := read fuel (source.drop length)
          ((a, raw) :: records, e)

/-- A header says what its record has and how long the body is. -/
def Heads (r : α × Bytes) (header : Bytes) : Prop := header.length = f.size ∧ f.parse header = .ok (r.1, r.2.length)

variable (header : α × Bytes → Bytes)

def encode (rs : List (α × Bytes)) : Bytes := rs.flatMap fun r => header r ++ r.2

/-- Where the first `n` records end. -/
def ends (size : Nat) (rs : List (α × Bytes)) (n : Nat) : Nat := ((rs.take n).map fun r => size + r.2.length).sum

/-- What a reader makes of the first `k` bytes of a file of records. -/
structure Cut (rs : List (α × Bytes)) (k : Nat) (result : List (α × Bytes) × Option E) (n : Nat) : Prop where
  le : n ≤ rs.length
  records : result.1 = rs.take n
  fits : ends f.size rs n ≤ k
  next : n < rs.length → k < ends f.size rs (n + 1)
  complete : result.2 = none ↔ k = ends f.size rs n
  error : ∀ e ∈ result.2, e = f.shortHeader ∨ e = f.shortBody

variable {f header}

@[simp] theorem ends_zero (size : Nat) (rs : List (α × Bytes)) : ends size rs 0 = 0 := rfl

@[simp] theorem ends_cons (size : Nat) (r : α × Bytes) (rs : List (α × Bytes)) (n : Nat) :
    ends size (r :: rs) (n + 1) = size + r.2.length + ends size rs n := rfl

/-- Later records end later. -/
theorem ends_lt {size : Nat} (hsize : 0 < size) {rs : List (α × Bytes)} : ∀ {m n : Nat}, m < n → n ≤ rs.length →
    ends size rs m < ends size rs n := by
  induction rs with
  | nil =>
    intro m n hlt hle
    exact absurd hle (by simp only [List.length_nil]; omega)
  | cons r rs ih =>
    intro m n hlt hle
    obtain ⟨n, rfl⟩ := Nat.exists_eq_succ_of_ne_zero (Nat.ne_zero_of_lt hlt)
    cases m with
    | zero =>
      rw [Nat.succ_eq_add_one, ends_cons, ends_zero]
      omega
    | succ m =>
      have hrest := @ih m n (by omega) (by simpa using hle)
      rw [Nat.succ_eq_add_one, ends_cons, ends_cons]
      omega

theorem ends_le {size : Nat} (hsize : 0 < size) {rs : List (α × Bytes)} {m n : Nat} (hmn : m ≤ n) (hn : n ≤ rs.length) :
    ends size rs m ≤ ends size rs n := by
  obtain hlt | rfl := Nat.lt_or_eq_of_le hmn
  · exact Nat.le_of_lt (ends_lt hsize hlt hn)
  · exact Nat.le_refl _

section Read

variable {r : α × Bytes} {rs : List (α × Bytes)} {source : Bytes} {fuel : Nat}

@[simp] theorem read_nil (fuel : Nat) : read f fuel [] = ([], none) := by cases fuel <;> simp [read]

/-- A file that ends inside a header. -/
theorem read_shortHeader (hpos : 0 < source.length) (hlt : source.length < f.size) :
    read f (fuel + 1) source = ([], some f.shortHeader) := by
  have hall : source.take f.size = source := List.take_of_length_le (Nat.le_of_lt hlt)
  have hne : source ≠ [] := List.ne_nil_of_length_pos hpos
  simp only [read, hall, hne, if_false, ne_eq, Nat.ne_of_lt hlt, not_false_eq_true, if_true]

/-- A header is at the front of the file. -/
theorem read_header (hsize : 0 < f.size) {front : Bytes} (hfront : Heads f r front) :
    read f (fuel + 1) (front ++ source) =
      if (source.take r.2.length).length ≠ r.2.length then ([], some f.shortBody)
      else ((r.1, source.take r.2.length) :: (read f fuel (source.drop r.2.length)).1,
        (read f fuel (source.drop r.2.length)).2) := by
  obtain ⟨hlength, hparse⟩ := hfront
  have hne : front ≠ [] := List.ne_nil_of_length_pos (hlength ▸ hsize)
  simp only [read, List.take_left' hlength, List.drop_left' hlength, hne, hlength, hparse, if_false, ne_eq,
    not_true_eq_false]

end Read

section Cut

variable {r : α × Bytes} {rs : List (α × Bytes)} {k n : Nat} {result : List (α × Bytes) × Option E}

theorem Cut.start (hsize : 0 < f.size) : Cut f rs 0 ([], none) 0 :=
  ⟨Nat.zero_le _, rfl, Nat.le_refl _, fun h => ends_lt hsize Nat.one_pos h, ⟨fun _ => rfl, fun _ => rfl⟩, nofun⟩

/-- The file ends inside its first record. -/
theorem Cut.torn {e : E} (hpos : 0 < k) (hlt : k < f.size + r.2.length) (he : e = f.shortHeader ∨ e = f.shortBody) :
    Cut f (r :: rs) k ([], some e) 0 :=
  ⟨Nat.zero_le _, rfl, Nat.zero_le _, fun _ => by rw [ends_cons, ends_zero]; exact hlt,
    ⟨nofun, fun h => absurd h (Nat.ne_of_gt hpos)⟩, fun _ h => Option.some.inj h ▸ he⟩

/-- The first record is whole. -/
theorem Cut.cons (h : Cut f rs k result n) :
    Cut f (r :: rs) (f.size + r.2.length + k) (r :: result.1, result.2) (n + 1) where
  le := Nat.succ_le_succ h.le
  records := congrArg (r :: ·) h.records
  fits := Nat.add_le_add_left h.fits _
  next := fun hn => Nat.add_lt_add_left (h.next (Nat.lt_of_succ_lt_succ hn)) _
  complete := by
    rw [ends_cons, Nat.add_left_cancel_iff]
    exact h.complete
  error := h.error

/-- The records that were read are those that end within the first `k` bytes. -/
theorem Cut.whole (h : Cut f rs k result n) (hsize : 0 < f.size) {i : Nat} (hi : i < rs.length) :
    i < n ↔ ends f.size rs (i + 1) ≤ k := by
  constructor
  · exact fun hin => Nat.le_trans (ends_le hsize hin h.le) h.fits
  · intro hle
    by_contra hni
    have hlate := h.next (by omega)
    have hmono : ends f.size rs (n + 1) ≤ ends f.size rs (i + 1) := ends_le hsize (by omega) hi
    omega

/-- There is no error just where a record ends. -/
theorem Cut.boundary (h : Cut f rs k result n) (hsize : 0 < f.size) :
    result.2 = none ↔ ∃ m, m ≤ rs.length ∧ k = ends f.size rs m := by
  rw [h.complete]
  constructor
  · exact fun heq => ⟨n, h.le, heq⟩
  · rintro ⟨m, hm, rfl⟩
    obtain hlt | rfl | hgt := Nat.lt_trichotomy m n
    · exact absurd h.fits (Nat.not_le.mpr (ends_lt hsize hlt h.le))
    · rfl
    · exact absurd (h.next (by omega)) (Nat.not_lt.mpr (ends_le hsize hgt hm))

end Cut

/-- What a reader makes of the first `k` bytes of a file of records. -/
theorem read_take (hsize : 0 < f.size) {rs : List (α × Bytes)} (hheads : ∀ r ∈ rs, Heads f r (header r)) :
    ∀ {k fuel : Nat}, k ≤ (encode header rs).length → k ≤ fuel →
      ∃ n, Cut f rs k (read f fuel ((encode header rs).take k)) n := by
  induction rs with
  | nil =>
    intro k fuel hk _
    obtain rfl : k = 0 := Nat.le_zero.mp hk
    rw [List.take_zero, read_nil]
    exact ⟨0, .start hsize⟩
  | cons r rs ih =>
    intro k fuel hk hfuel
    have hhead := hheads r List.mem_cons_self
    have hcode : encode header (r :: rs) = header r ++ (r.2 ++ encode header rs) := List.append_assoc _ _ _
    have hsizes : (header r).length = f.size := hhead.1
    rw [hcode] at hk ⊢
    obtain rfl | hpos := Nat.eq_zero_or_pos k
    · rw [List.take_zero, read_nil]
      exact ⟨0, .start hsize⟩
    obtain ⟨fuel, rfl⟩ := Nat.exists_eq_succ_of_ne_zero (by omega : fuel ≠ 0)
    by_cases hshort : k < f.size
    · have hlength : ((header r ++ (r.2 ++ encode header rs)).take k).length = k := by
        rw [List.length_take]
        omega
      rw [read_shortHeader (hlength.symm ▸ hpos) (hlength.symm ▸ hshort)]
      exact ⟨0, .torn hpos (by omega) (.inl rfl)⟩
    obtain ⟨k, rfl⟩ := Nat.exists_eq_add_of_le (Nat.le_of_not_lt hshort)
    rw [← hsizes, List.take_length_add_append, read_header hsize hhead]
    by_cases hbody : k < r.2.length
    · have hlength : (((r.2 ++ encode header rs).take k).take r.2.length).length ≠ r.2.length := by
        simp only [List.length_take]
        omega
      rw [if_pos hlength, hsizes]
      exact ⟨0, .torn hpos (by omega) (.inr rfl)⟩
    obtain ⟨k, rfl⟩ := Nat.exists_eq_add_of_le (Nat.le_of_not_lt hbody)
    obtain ⟨n, hcut⟩ := @ih (fun r hr => hheads r (List.mem_cons_of_mem _ hr)) k fuel
      (by simp only [List.length_append] at hk; omega) (by omega)
    rw [List.take_length_add_append, List.take_left, List.drop_left, if_neg (fun h => h rfl), hsizes, ← Nat.add_assoc]
    exact ⟨n + 1, hcut.cons⟩

theorem length_encode {rs : List (α × Bytes)} (hheads : ∀ r ∈ rs, Heads f r (header r)) :
    (encode header rs).length = ends f.size rs rs.length := by
  induction rs with
  | nil => rfl
  | cons r rs ih =>
    have hrest := ih fun r hr => hheads r (List.mem_cons_of_mem _ hr)
    have hfront : (header r).length = f.size := (hheads r List.mem_cons_self).1
    rw [List.length_cons, ends_cons, ← hrest, ← hfront]
    simp only [encode, List.flatMap_cons, List.length_append]

/-- A whole file is read back. -/
theorem read_encode (hsize : 0 < f.size) {rs : List (α × Bytes)} (hheads : ∀ r ∈ rs, Heads f r (header r)) {fuel : Nat}
    (hfuel : (encode header rs).length ≤ fuel) : read f fuel (encode header rs) = (rs, none) := by
  obtain ⟨n, hcut⟩ := read_take hsize hheads (Nat.le_refl _) hfuel
  rw [List.take_length] at hcut
  have hlength := length_encode hheads
  have hall : n = rs.length := by
    by_contra hne
    have hle := hcut.le
    have hlate := hcut.next (by omega)
    have hmono : ends f.size rs (n + 1) ≤ ends f.size rs rs.length := ends_le hsize (by omega) (Nat.le_refl _)
    omega
  refine Prod.ext ?_ ((hcut.boundary hsize).mpr ⟨rs.length, Nat.le_refl _, hlength⟩)
  rw [hcut.records, hall, List.take_length]

end LoraLink.Records
