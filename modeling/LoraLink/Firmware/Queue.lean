import LoraLink.Firmware.Spec
import LoraLink.Lib.Ring
import LoraLink.Lib.Spool

/-!
# The output queue of the firmware

The six slots are a ring buffer. `entries` is the list of the frames in it, oldest first; `putQ` and `flush` are
operations on that list.

- `putQ_cases`: a frame is dropped, or put behind the others, after an event has given way if there is no room;
- `flush_cases`: nothing happens, or the first frame is gone;
- `output_queue_refines`: over every run of the two, the ring is the list it stands for, and no response is lost while
  there is room or an event.
-/

namespace LoraLink.Firmware

namespace Fw

/-- The slots and the places in them fit together. -/
structure RingOk (s : Fw) : Prop where
  size : s.q.length = QD
  count : s.qn ≤ QD
  tail : s.qt = (s.qh + s.qn) % QD

/-- The frames in the queue, oldest first. -/
def entries (s : Fw) : List F := Ring.contents {} s.q s.qh s.qn

variable {s : Fw}

theorem length_entries (s : Fw) : s.entries.length = s.qn := Ring.length_contents

theorem slot_eq (h : s.RingOk) (k : Nat) : s.slot k = Ring.entry {} s.q s.qh k := by
  rw [slot, Ring.entry, h.size]

theorem getElem?_entries (h : s.RingOk) {k : Nat} (hk : k < s.qn) : s.entries[k]? = some (s.slot k) := by
  rw [slot_eq h, entries, Ring.getElem?_contents hk]

/-- A slot is filled behind the others. -/
theorem store_entries (h : s.RingOk) (hn : s.qn < QD) (b : Bytes) (event : Bool) :
    (s.store b event).RingOk ∧ (s.store b event).entries = s.entries ++ [{ b := b, event := event }] := by
  constructor
  · refine ⟨?_, hn, ?_⟩
    · simp only [store, List.length_set]
      exact h.size
    · simp only [store, h.tail]
      rw [Nat.mod_add_mod, Nat.add_assoc]
  · have hpush := @Ring.contents_push F {} s.q s.qh s.qn { b := b, event := event } (by rw [h.size]; exact hn)
    rw [h.size, ← h.tail] at hpush
    exact hpush

/-- Closing a gap changes the slots only. -/
theorem closeGap_eq (h : s.RingOk) (offset : Nat) :
    s.closeGap offset = { s with q := Ring.shift {} s.qh offset s.q (s.qn - 1 - offset) } := by
  unfold closeGap Ring.shift
  generalize List.range (s.qn - 1 - offset) = l
  have hloop : ∀ (l : List Nat) (q : List F), q.length = QD →
      l.foldl (fun t k => { t with q := t.q.set ((t.qh + (offset + k)) % QD) (t.slot (offset + k + 1)) })
          { s with q := q } =
        { s with q := l.foldl (fun q k => q.set ((s.qh + (offset + k)) % q.length)
          (Ring.entry {} q s.qh (offset + k + 1))) q } := by
    intro l
    induction l with
    | nil => exact fun q _ => rfl
    | cons k l ih =>
      intro q hq
      rw [List.foldl_cons, List.foldl_cons]
      have hslot : ({ s with q := q } : Fw).slot (offset + k + 1) = Ring.entry {} q s.qh (offset + k + 1) := by
        rw [slot, Ring.entry, hq]
      have hset : (q.set ((s.qh + (offset + k)) % q.length) (Ring.entry {} q s.qh (offset + k + 1))).length = QD := by
        rw [List.length_set, hq]
      rw [← ih _ hset]
      simp only [hslot, hq]
  exact hloop l s.q h.size

/-- The entry at `offset` gives way: the gap is closed, and the tail moves back. -/
def giveWay (offset : Nat) (s : Fw) : Fw :=
  let s := s.closeGap offset
  { s with qt := (s.qt + QD - 1) % QD, qn := s.qn - 1 }

theorem giveWay_entries (h : s.RingOk) {offset : Nat} (hoffset : offset < s.qn) :
    (s.giveWay offset).RingOk ∧ (s.giveWay offset).entries = s.entries.eraseIdx offset ∧
      (s.giveWay offset).qn = s.qn - 1 ∧ (s.giveWay offset).c = s.c := by
  have hcount := h.count
  unfold giveWay
  rw [closeGap_eq h]
  refine ⟨⟨?_, ?_, ?_⟩, ?_, rfl, rfl⟩
  · exact (Ring.length_shift _).trans h.size
  · exact (Nat.sub_le _ _).trans hcount
  · simp only [h.tail, QD] at hcount ⊢
    omega
  · exact Ring.contents_shift (by rw [h.size]; exact hcount) hoffset

/-- What `putQ` does with a frame. -/
inductive Put (s : Fw) (b : Bytes) (event : Bool) : List F → C → Prop
  | stored : Put s b event (s.entries ++ [{ b := b, event := event }])
      { s.c with rxEventQueued := s.c.rxEventQueued + if event then 1 else 0 }
  | dropped (he : event = true) : Put s b event s.entries { s.c with drops := s.c.drops + 1 }
  | lost (he : event = false) : Put s b event s.entries s.c
  | evicted {offset : Nat} {f : F} (he : event = false) (hf : s.entries[offset]? = some f) (hevent : f.event = true) :
      Put s b event (s.entries.eraseIdx offset ++ [{ b := b, event := event }]) { s.c with drops := s.c.drops + 1 }

theorem store_c (s : Fw) (b : Bytes) (event : Bool) :
    (s.store b event).c = { s.c with rxEventQueued := s.c.rxEventQueued + if event then 1 else 0 } := by
  cases event
  · rfl
  · rfl

/-- What `putQ` adds to the drops: a frame that is an event, or makes one give way, finding no room. -/
def dropsOf (f : F) (l : List F) : Nat := if l.length < QD then 0 else if f.event || l.any F.event then 1 else 0

/-- The frames and the counters behind `putQ`: those of a bounded queue in which the events yield. -/
theorem putQ_entries (h : s.RingOk) (b : Bytes) (event : Bool) :
    (s.putQ b event).RingOk ∧ (s.putQ b event).entries = Spool.put QD F.event { b := b, event := event } s.entries ∧
      (s.putQ b event).c = { s.c with
        drops := s.c.drops + dropsOf { b := b, event := event } s.entries
        rxEventQueued := s.c.rxEventQueued + if event = true ∧ s.qn < QD then 1 else 0 } := by
  have hnote : (s.note (.putQ b event)).RingOk := ⟨h.size, h.count, h.tail⟩
  have hcount := h.count
  have hlength : s.entries.length = s.qn := length_entries s
  unfold putQ Spool.put dropsOf
  simp only [hlength]
  by_cases hfull : (s.note (.putQ b event)).qn = QD
  · have hno : ¬ s.qn < QD := by
      have hqn : s.qn = QD := hfull
      omega
    rw [if_pos hfull]
    simp only [hno, and_false, if_false, Nat.add_zero]
    cases event with
    | true => exact ⟨⟨h.size, h.count, h.tail⟩, rfl, rfl⟩
    | false =>
      simp only [Bool.false_eq_true, if_false, Bool.false_or]
      have hfind : s.entries.findIdx? F.event = (List.range s.qn).find? fun k => (s.slot k).event := by
        rw [entries, Ring.findIdx?_contents]
        exact congrArg (List.find? · _) (funext fun k => by rw [slot_eq h])
      have hslots : (List.range (s.note (.putQ b false)).qn).find?
          (fun offset => ((s.note (.putQ b false)).slot offset).event) = s.entries.findIdx? F.event := hfind.symm
      rw [hslots]
      cases hidx : s.entries.findIdx? F.event with
      | none =>
        have hany : s.entries.any F.event = false := List.any_eq_false.mpr fun f hf => by
          simp [List.findIdx?_eq_none_iff.mp hidx f hf]
        rw [hany]
        exact ⟨hnote, rfl, rfl⟩
      | some offset =>
        obtain ⟨hoffset, hevent, -⟩ := List.findIdx?_eq_some_iff_getElem.mp hidx
        have hany : s.entries.any F.event = true := List.any_eq_true.mpr ⟨_, List.getElem_mem hoffset, hevent⟩
        rw [hlength] at hoffset
        obtain ⟨hring, hentries, hn, hc⟩ := giveWay_entries hnote hoffset
        have hcounted : (((s.note (.putQ b false)).giveWay offset).count fun c =>
            { c with drops := c.drops + 1 }).RingOk :=
          ⟨hring.size, hring.count, hring.tail⟩
        have hroom : ((s.note (.putQ b false)).giveWay offset).qn < QD := by
          have hqn : (s.note (.putQ b false)).qn = s.qn := rfl
          omega
        obtain ⟨hstored, hput⟩ := store_entries hcounted hroom b false
        have hlast : (((s.note (.putQ b false)).giveWay offset).count fun c => { c with drops := c.drops + 1 }).entries =
            s.entries.eraseIdx offset := hentries
        have hcount' : (((s.note (.putQ b false)).giveWay offset).count fun c => { c with drops := c.drops + 1 }).c =
            { s.c with drops := s.c.drops + 1 } := by
          simp only [count, hc]
          rfl
        rw [hlast] at hput
        refine ⟨hstored, hput, ?_⟩
        show ((((s.note (.putQ b false)).giveWay offset).count
          fun c => { c with drops := c.drops + 1 }).store b false).c = _
        rw [store_c, hcount', hany]
        rfl
  · rw [if_neg hfull]
    have hroom : (s.note (.putQ b event)).qn < QD := by
      have hn : (s.note (.putQ b event)).qn = s.qn := rfl
      omega
    have hyes : s.qn < QD := hroom
    obtain ⟨hring, hentries⟩ := store_entries hnote hroom b event
    refine ⟨hring, ?_, ?_⟩
    · rw [if_pos hyes]
      exact hentries
    · rw [store_c]
      simp only [hyes, and_true, if_true, Nat.add_zero]
      rfl

/-- A frame is dropped, or put behind the others. -/
theorem putQ_cases (h : s.RingOk) (b : Bytes) (event : Bool) :
    (s.putQ b event).RingOk ∧ Put s b event (s.putQ b event).entries (s.putQ b event).c := by
  obtain ⟨hring, hentries, hc⟩ := putQ_entries h b event
  refine ⟨hring, ?_⟩
  have hlength : s.entries.length = s.qn := length_entries s
  rw [hentries, hc]
  rcases @Spool.put_cases F QD F.event { b := b, event := event } s.entries with
    ⟨hno, hfull, hput⟩ | ⟨-, hroom, hput⟩ | ⟨offset, f, -, hfull, he, hf, hevent, -, hput⟩
  · have hno' : ¬ s.qn < QD := hlength ▸ hfull
    have hdrops : dropsOf { b := b, event := event } s.entries = if event || s.entries.any F.event then 1 else 0 :=
      if_neg hfull
    rw [hput, hdrops]
    simp only [hno', and_false, if_false, Nat.add_zero]
    cases event with
    | true => exact .dropped rfl
    | false =>
      have hany : s.entries.any F.event = false := by simpa [Spool.admits, hfull] using hno
      rw [hany]
      exact .lost rfl
  · have hyes : s.qn < QD := hlength ▸ hroom
    have hdrops : dropsOf { b := b, event := event } s.entries = 0 := if_pos hroom
    rw [hput, hdrops]
    simp only [hyes, and_true, Nat.add_zero]
    exact .stored
  · have hany : s.entries.any F.event = true := List.any_eq_true.mpr ⟨f, List.mem_of_getElem? hf, hevent⟩
    obtain rfl : event = false := he
    have hdrops : dropsOf { b := b, event := false } s.entries = 1 := by rw [dropsOf, if_neg hfull, hany]; rfl
    rw [hput, hdrops]
    exact .evicted rfl hf hevent

/-- Closing a gap changes the slots only, whether or not they fit. -/
theorem closeGap_slots (s : Fw) (offset : Nat) : ∃ q, s.closeGap offset = { s with q := q } := by
  unfold closeGap
  have hloop : ∀ (l : List Nat) (q : List F), ∃ q', l.foldl
      (fun t k => { t with q := t.q.set ((t.qh + (offset + k)) % QD) (t.slot (offset + k + 1)) }) { s with q := q } =
        { s with q := q' } := by
    intro l
    induction l with
    | nil => exact fun q => ⟨q, rfl⟩
    | cons k l ih => exact fun q => ih _
  exact hloop _ s.q

/-- Outside the queue, `putQ` changes the drops, and for an event the number of the events that were queued. -/
theorem putQ_changes (s : Fw) (b : Bytes) (event : Bool) : ∃ q qt qn drops queued,
    (event = false → queued = s.c.rxEventQueued) ∧ s.putQ b event =
      { s with q := q, qt := qt, qn := qn, c := { s.c with drops := drops, rxEventQueued := queued }
               calls := s.calls ++ [.putQ b event] } := by
  have hstore : ∀ (s : Fw), ∃ q qt qn drops queued, (event = false → queued = s.c.rxEventQueued) ∧ s.store b event =
      { s with q := q, qt := qt, qn := qn, c := { s.c with drops := drops, rxEventQueued := queued } } := by
    intro s
    cases event
    · exact ⟨_, _, _, _, _, fun _ => rfl, rfl⟩
    · exact ⟨_, _, _, _, _, fun h => absurd h (by decide), rfl⟩
  unfold putQ
  simp only
  split
  · split
    · exact ⟨_, _, _, _, _, fun _ => rfl, rfl⟩
    · split
      · exact ⟨_, _, _, _, _, fun _ => rfl, rfl⟩
      · rename_i offset _
        obtain ⟨q, hgap⟩ := closeGap_slots (s.note (.putQ b event)) offset
        rw [hgap]
        obtain ⟨q, qt, qn, drops, queued, hqueued, hs⟩ := hstore _
        refine ⟨q, qt, qn, drops, queued, ?_, hs⟩
        exact hqueued
  · obtain ⟨q, qt, qn, drops, queued, hqueued, hs⟩ := hstore (s.note (.putQ b event))
    exact ⟨q, qt, qn, drops, queued, hqueued, hs⟩

/-- Outside the queue, `putQ` changes two counters. -/
theorem putQ_fields (s : Fw) (b : Bytes) (event : Bool) : ∃ q qt qn drops queued, s.putQ b event =
    { s with q := q, qt := qt, qn := qn, c := { s.c with drops := drops, rxEventQueued := queued }
             calls := s.calls ++ [.putQ b event] } := by
  obtain ⟨q, qt, qn, drops, queued, -, hs⟩ := putQ_changes s b event
  exact ⟨q, qt, qn, drops, queued, hs⟩

/-- A response changes the drops only. -/
theorem putQ_response (s : Fw) (r : Bytes) : ∃ q qt qn drops, s.putQ r false =
    { s with q := q, qt := qt, qn := qn, c := { s.c with drops := drops }, calls := s.calls ++ [.putQ r false] } := by
  obtain ⟨q, qt, qn, drops, queued, hqueued, hs⟩ := putQ_changes s r false
  obtain rfl := hqueued rfl
  exact ⟨q, qt, qn, drops, hs⟩

/-- The port has room for the encoded frame and the delimiter behind it. -/
def fits (availableForWrite : Int) (f : F) : Bool := decide (¬ availableForWrite < ((enc f.b).length : Int) + 1)

/-- The frames behind `flush`: the first one is gone if the port has room for it. -/
theorem flush_entries (h : s.RingOk) (availableForWrite : Int) (written : Nat) :
    (s.flush availableForWrite written).RingOk ∧
      (s.flush availableForWrite written).entries = Spool.pop (fits availableForWrite) s.entries := by
  have hlength : s.entries.length = s.qn := length_entries s
  unfold flush
  by_cases hempty : s.qn = 0
  · rw [if_pos hempty]
    have hnil : s.entries = [] := List.length_eq_zero_iff.mp (hlength.trans hempty)
    rw [hnil]
    exact ⟨h, rfl⟩
  · rw [if_neg hempty]
    simp only
    have hhead : s.entries.head? = some (s.slot 0) := by
      rw [List.head?_eq_getElem?]
      exact getElem?_entries h (Nat.pos_of_ne_zero hempty)
    obtain ⟨rest, hrest⟩ := List.head?_eq_some_iff.mp hhead
    by_cases hroom : availableForWrite < ((enc (s.slot 0).b).length : Int) + 1
    · rw [if_pos hroom]
      refine ⟨h, ?_⟩
      simp [hrest, Spool.pop, fits, hroom]
    · rw [if_neg hroom]
      have hpop := @Ring.contents_pop F {} s.q s.qh s.qn
      rw [h.size] at hpop
      have hcount := h.count
      constructor
      · refine ⟨h.size, (Nat.sub_le _ _).trans hcount, ?_⟩
        simp only [note, h.tail, QD] at hcount ⊢
        omega
      · show Ring.contents {} s.q ((s.qh + 1) % QD) (s.qn - 1) = _
        rw [hpop]
        show s.entries.tail = _
        simp [hrest, Spool.pop, fits, hroom]

/-- What `flush` does. -/
inductive Flushed (s : Fw) : List F → C → Prop
  | nothing : Flushed s s.entries s.c
  | written {f : F} (hf : s.entries.head? = some f) (he : f.event = true) :
      Flushed s s.entries.tail { s.c with rxEventWritten := s.c.rxEventWritten + 1 }
  | cut {f : F} (hf : s.entries.head? = some f) (he : f.event = true) :
      Flushed s s.entries.tail { s.c with drops := s.c.drops + 1 }
  | answered {f : F} {c : C} (hf : s.entries.head? = some f) (he : f.event = false)
      (hc : c = s.c ∨ c = { s.c with usbBad := s.c.usbBad + 1 }) : Flushed s s.entries.tail c

/-- Nothing happens, or the first frame is gone. -/
theorem flush_cases (h : s.RingOk) (availableForWrite : Int) (written : Nat) :
    (s.flush availableForWrite written).RingOk ∧
      Flushed s (s.flush availableForWrite written).entries (s.flush availableForWrite written).c := by
  obtain ⟨hring, hentries⟩ := flush_entries h availableForWrite written
  refine ⟨hring, ?_⟩
  rw [hentries]
  unfold flush
  by_cases hempty : s.qn = 0
  · have hnil : s.entries = [] := List.length_eq_zero_iff.mp ((length_entries s).trans hempty)
    have hpop : Spool.pop (fits availableForWrite) s.entries = s.entries := by rw [hnil]; rfl
    rw [if_pos hempty, hpop]
    exact .nothing
  · rw [if_neg hempty]
    simp only
    have hhead : s.entries.head? = some (s.slot 0) := by
      rw [List.head?_eq_getElem?]
      exact getElem?_entries h (Nat.pos_of_ne_zero hempty)
    obtain ⟨rest, hrest⟩ := List.head?_eq_some_iff.mp hhead
    by_cases hroom : availableForWrite < ((enc (s.slot 0).b).length : Int) + 1
    · have hpop : Spool.pop (fits availableForWrite) s.entries = s.entries := by simp [hrest, Spool.pop, fits, hroom]
      rw [if_pos hroom, hpop]
      exact .nothing
    · have hpop : Spool.pop (fits availableForWrite) s.entries = s.entries.tail := by
        simp [hrest, Spool.pop, fits, hroom]
      rw [if_neg hroom, hpop]
      by_cases hwhole : ((enc (s.slot 0).b ++ [0]).take written).length = (enc (s.slot 0).b).length + 1
      · cases hevent : (s.slot 0).event with
        | true =>
          rw [if_pos ⟨hwhole, rfl⟩]
          exact .written hhead hevent
        | false =>
          rw [if_neg (by simp), if_neg (not_not.mpr hwhole)]
          exact .answered hhead hevent (Or.inl rfl)
      · rw [if_neg fun hboth => hwhole hboth.1, if_pos hwhole]
        cases hevent : (s.slot 0).event with
        | true =>
          rw [if_pos rfl]
          exact .cut hhead hevent
        | false =>
          rw [if_neg Bool.false_ne_true]
          exact .answered hhead hevent (Or.inr rfl)

end Fw

/-! ## Every run -/

/-- A call of `putQ`, or of `flush` with the room the port reports and the number of bytes it takes. -/
inductive QueueInput
  | putQ (b : Bytes) (event : Bool)
  | flush (availableForWrite : Int) (written : Nat)

def queueStep : QueueInput → Fw → Fw
  | .putQ b event, s => s.putQ b event
  | .flush availableForWrite written, s => s.flush availableForWrite written

namespace QueueInput

/-- The operation on the list. -/
def op : QueueInput → Spool.Op F
  | .putQ b event => .put { b := b, event := event }
  | .flush availableForWrite _ => .pop (Fw.fits availableForWrite)

/-- The frame of a call of `putQ`. -/
def offered : QueueInput → List F
  | .putQ b event => [{ b := b, event := event }]
  | .flush _ _ => []

end QueueInput

/-- What a call takes into the list and gives out. -/
def queueOuts (x : Move Fw QueueInput) : List (Spool.Out F) := Spool.outs QD F.event x.input.op x.before.entries

theorem queueStep_entries {s : Fw} (h : s.RingOk) (i : QueueInput) :
    (queueStep i s).RingOk ∧ (queueStep i s).entries = Spool.next QD F.event i.op s.entries := by
  cases i with
  | putQ b event =>
    obtain ⟨hring, hentries, -⟩ := Fw.putQ_entries h b event
    exact ⟨hring, hentries⟩
  | flush availableForWrite written => exact Fw.flush_entries h availableForWrite written

/-- The queue is empty at the start. -/
theorem setup_entries (d : Board) : (setup d).RingOk ∧ (setup d).entries = [] := by
  have hstart : ∀ s : Fw, s.q = List.replicate QD {} → s.qh = 0 → s.qt = 0 → s.qn = 0 → s.RingOk ∧ s.entries = [] := by
    intro s hq hqh hqt hqn
    refine ⟨⟨?_, ?_, ?_⟩, ?_⟩
    · rw [hq, List.length_replicate]
    · rw [hqn]
      exact Nat.zero_le _
    · rw [hqt, hqh, hqn]
      rfl
    · rw [← List.length_eq_zero_iff, Fw.length_entries, hqn]
  unfold setup Fw.listen
  simp only
  split_ifs <;> exact hstart _ rfl rfl rfl rfl

/-- A frame that enters the list is the one of the call. -/
theorem enteredIn_queueOuts (x : Move Fw QueueInput) : List.Sublist (Spool.enteredIn (queueOuts x)) x.input.offered := by
  cases hi : x.input with
  | putQ b event =>
    simp only [queueOuts, hi, QueueInput.op, Spool.outs, QueueInput.offered]
    split
    · exact List.Sublist.refl _
    · exact List.nil_sublist _
  | flush availableForWrite written =>
    have hnone : Spool.enteredIn (queueOuts x) = [] := by
      simp only [queueOuts, hi, QueueInput.op]
      cases x.before.entries with
      | nil => rfl
      | cons f l =>
        simp only [Spool.outs]
        split
        · rfl
        · rfl
    rw [hnone]
    exact List.nil_sublist _

/-- The frames that enter the list, in a run, are among those of the calls, in their order. -/
theorem enteredIn_trace (s : Fw) (is : List QueueInput) :
    List.Sublist (Spool.enteredIn (outputs queueOuts (trace queueStep s is))) (is.flatMap QueueInput.offered) := by
  induction is generalizing s with
  | nil => exact List.Sublist.refl _
  | cons i is ih =>
    simp only [trace, outputs_cons, Spool.enteredIn_append, List.flatMap_cons]
    exact (enteredIn_queueOuts ⟨s, i, queueStep i s⟩).append (ih _)

/-- A response is taken in if there is room for it, or an event in the queue. -/
theorem queueOuts_response {x : Move Fw QueueInput} {b : Bytes} (hi : x.input = .putQ b false)
    (hroom : x.before.qn < QD ∨ ∃ f ∈ x.before.entries, f.event = true) :
    queueOuts x = [.entered { b := b, event := false }] := by
  have hadmits : Spool.admits QD F.event { b := b, event := false } x.before.entries = true := by
    rcases hroom with hroom | ⟨f, hf, hevent⟩
    · simp [Spool.admits, Fw.length_entries, hroom]
    · have hany : x.before.entries.any F.event = true := List.any_eq_true.mpr ⟨f, hf, hevent⟩
      simp [Spool.admits, hany]
  simp only [queueOuts, hi, QueueInput.op, Spool.outs, hadmits, if_true]

/-- The ring at the end of a run `is`, by the list that the calls make of the empty one. -/
structure QueueRefines (is : List QueueInput) (s : Fw) (T : List (Move Fw QueueInput)) : Prop where
  entries : s.entries = run (Spool.next QD F.event) [] (is.map QueueInput.op)
  /-- The places in the ring fit together. -/
  count : s.qn = s.entries.length ∧ s.qn ≤ QD
  tail : s.qt = (s.qh + s.qn) % QD
  /-- Every call acts on the list, and `putQ` counts what it drops. -/
  moves : ∀ x ∈ T, x.after.entries = Spool.next QD F.event x.input.op x.before.entries ∧
    ∀ f ∈ x.input.offered, x.after.c.drops = x.before.c.drops + Fw.dropsOf f x.before.entries
  /-- The frames leave in the order of the calls that brought them. -/
  order : List.Sublist (Spool.leftIn (outputs queueOuts T) ++ s.entries) (is.flatMap QueueInput.offered)
  /-- A response that was taken in has left or is still there, in order. -/
  kept : (Spool.leftIn (outputs queueOuts T) ++ s.entries).filter (fun f => !f.event) =
    (Spool.enteredIn (outputs queueOuts T)).filter fun f => !f.event
  /-- A response is taken in unless the queue is full of responses. -/
  taken : ∀ x ∈ T, ∀ b, x.input = .putQ b false → (x.before.qn < QD ∨ ∃ f ∈ x.before.entries, f.event = true) →
    queueOuts x = [.entered { b := b, event := false }]

/-- The ring refines the list, whatever the calls of `putQ` and `flush`. -/
theorem output_queue_refines (d : Board) (is : List QueueInput) :
    QueueRefines is (run queueStep (setup d) is) (trace queueStep (setup d) is) := by
  obtain ⟨hring, hempty⟩ := setup_entries d
  obtain ⟨hlast, hentries⟩ := run_refines (P := Fw.RingOk) Fw.entries QueueInput.op
    (fun i s h => queueStep_entries h i) hring is
  rw [hempty] at hentries
  have hstart : Spool.Fair QD F.event [] (setup d).entries := by
    rw [hempty]
    exact ⟨Nat.zero_le _, List.Sublist.refl _, rfl⟩
  have hfair : Spool.Fair QD F.event ([] ++ outputs queueOuts (trace queueStep (setup d) is))
      (run queueStep (setup d) is).entries :=
    (@run_rel _ _ queueStep _ queueOuts (fun H s => s.RingOk ∧ Spool.Fair QD F.event H s.entries) (fun _ => True) [] _
      ⟨hring, hstart⟩ (fun H i s hs _ => by
        obtain ⟨hnext, hstep⟩ := queueStep_entries hs.1 i
        exact ⟨hnext, hstep ▸ hs.2.next i.op⟩) is fun _ _ => trivial).2
  rw [List.nil_append] at hfair
  refine ⟨hentries, ⟨(Fw.length_entries _).symm, hlast.count⟩, hlast.tail, fun x hx => ?_, ?_, hfair.kept,
    fun x _ b hi hroom => queueOuts_response hi hroom⟩
  · have hbefore : x.before.RingOk := (trace_inv hring (fun i s h => (queueStep_entries h i).1) hx).1
    rw [trace_step hx]
    refine ⟨(queueStep_entries hbefore x.input).2, fun f hf => ?_⟩
    cases hi : x.input with
    | putQ b event =>
      rw [hi] at hf
      obtain rfl := List.mem_singleton.mp hf
      obtain ⟨-, -, hc⟩ := Fw.putQ_entries hbefore b event
      show (x.before.putQ b event).c.drops = _
      rw [hc]
    | flush availableForWrite written =>
      rw [hi] at hf
      cases hf
  · exact hfair.order.trans (enteredIn_trace _ is)

end LoraLink.Firmware
