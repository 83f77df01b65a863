import LoraLink.Firmware.Bounds

/-!
# The firmware stays inside its arrays

`Ram.plain` forgets the arrays: it shows the state of `Fw`, whose byte strings are what the arrays hold up to their
lengths. `Simulates x f`: from a state whose indices and lengths are in bounds, the function `x` over arrays returns,
which it would not do after an access outside one of them, and does what `f` does; the bounds hold again.

- `putQ_simulates` to `usbByte_simulates`: every function of the source;
- `buffers_in_bounds`: so no run leaves an array, and the arrays hold what the byte strings of `Fw` hold.
-/

namespace LoraLink.Firmware

open Prog

/-- The slot without its array. -/
def Slot.frame (f : Slot) : F := { b := f.b.items.take f.n, event := f.event }

namespace Ram

/-- The state without its arrays. -/
def plain (r : Ram) : Fw :=
  { r.g with
    q := r.q.items.map Slot.frame, inb := r.inb.items.take r.inN, lastReq := r.lastReq.items.take r.lastReqN
    lastResp := r.lastResp.items.take r.lastRespN, txPacket := r.txPacket.items.take r.txPacketN }

/-- The indices and the lengths are in bounds. -/
structure Bounded (r : Ram) : Prop where
  qh : r.g.qh < QD
  qt : r.g.qt < QD
  slots : ∀ slot ∈ r.q.items, slot.n ≤ UD
  inN : r.inN ≤ UE
  lastReqN : r.lastReqN ≤ UD
  lastRespN : r.lastRespN ≤ UD

/-- A state in bounds that looks like `s` without its arrays. -/
def View (s : Fw) (r : Ram) : Prop := r.Bounded ∧ r.plain = s

/-- From a view of `t` the program ends in a view of `s`. -/
def Carries (t : Fw) (x : Op Unit) (s : Fw) : Prop := Triple (View t) x (Returns fun _ => View s)

/-- The function over arrays stays inside them, and does what `f` does. -/
def Simulates (x : Op Unit) (f : Fw → Fw) : Prop := ∀ s, Carries s x (f s)

/-- From the state `r` the program ends in a view of `s`. -/
def Leads (r : Ram) (x : Op Unit) (s : Fw) : Prop := Triple (fun r' => r' = r) x (Returns fun _ => View s)

/-! ## Rules -/

section Rules

variable {x y : Op Unit} {f g : Fw → Fw} {r : Ram} {s : Fw}

theorem Carries.seq {t u : Fw} (hx : Carries t x u) (hy : Carries u y s) : Carries t (x >>= fun _ => y) s :=
  Triple.seq hx fun _ => hy

theorem Simulates.nop : Simulates (pure ()) fun s => s := fun _ _ h => h

/-- A program that reads the state first. -/
theorem Carries.read {t : Fw} {x : Ram → Op Unit} (h : ∀ r, r.Bounded → r.plain = t → Leads r (x r) s) :
    Carries t (get >>= x) s :=
  Triple.get_bind_eq fun r hr => h r hr.1 hr.2

theorem Simulates.leads (h : Simulates x f) (hb : r.Bounded) (hs : s = f r.plain) : Leads r x s := by
  rw [hs]
  refine (h r.plain).pre ?_
  rintro _ rfl
  exact ⟨hb, rfl⟩

theorem Simulates.forEach {α : Type} {x : α → Op Unit} {f : Fw → α → Fw} (h : ∀ a, Simulates (x a) fun s => f s a)
    (l : List α) : Simulates (forEach x l) fun s => l.foldl f s := by
  induction l with
  | nil => exact Simulates.nop
  | cons a l ih => exact fun s => (h a s).seq (ih _)

/-- The value of a function over arrays. -/
theorem Leads.lift {α : Type} {c : Checked α} {k : α → Op Unit} {P : α → Prop} (h : Returning c P)
    (hk : ∀ a, P a → Leads r (k a) s) : Leads r (lift c >>= k) s := by
  obtain ⟨a, hc, ha⟩ := h
  exact Triple.lift_bind hc (hk a ha)

theorem Leads.lift_eq {α : Type} {c : Checked α} {k : α → Op Unit} {a : α} (h : c = .ok a) (hk : Leads r (k a) s) :
    Leads r (Prog.lift c >>= k) s := Triple.lift_bind h hk

/-- The state is read again. -/
theorem Leads.get {k : Ram → Op Unit} (h : Leads r (k r) s) : Leads r (Prog.get >>= k) s := by
  rintro _ rfl
  exact h _ rfl

theorem Leads.modify {u : Ram → Ram} (h : View s (u r)) : Leads r (modify u) s := by
  rintro _ rfl
  exact h

theorem Leads.modify_bind {u : Ram → Ram} {k : Op Unit} (h : Leads (u r) k s) :
    Leads r (Prog.modify u >>= fun _ => k) s := by
  rintro _ rfl
  exact h _ rfl

theorem Leads.seq {t : Fw} (hx : Leads r x t) (hy : Carries t y s) : Leads r (x >>= fun _ => y) s :=
  Triple.seq hx fun _ => hy

/-- A branch on a condition that does not depend on the arrays. -/
theorem Leads.branch {t : Fw} {c d : Prop} [Decidable c] [Decidable d] (h : c ↔ d) (hx : c → Leads r x s)
    (hy : ¬ c → Leads r y t) : Leads r (if c then x else y) (if d then s else t) := by
  by_cases hc : c
  · rw [if_pos hc, if_pos (h.mp hc)]
    exact hx hc
  · rw [if_neg hc, if_neg fun hd => hc (h.mpr hd)]
    exact hy hc

theorem Carries.branch {t u : Fw} {c : Prop} [Decidable c] (hx : c → Carries u x s) (hy : ¬ c → Carries u y t) :
    Carries u (if c then x else y) (if c then s else t) := by
  by_cases hc : c
  · rw [if_pos hc, if_pos hc]
    exact hx hc
  · rw [if_neg hc, if_neg hc]
    exact hy hc

theorem Leads.nop (hb : r.Bounded) (hs : s = r.plain) : Leads r (pure ()) s := Simulates.nop.leads hb hs

/-- What a program that leads to a state returns. -/
theorem Leads.returns (h : Leads r x s) : ∃ r', x r = (.ok (), r') ∧ View s r' := by
  have hend := h r rfl
  rcases hx : x r with ⟨res, r'⟩
  rw [hx] at hend
  cases res with
  | ok _ => exact ⟨r', rfl, hend⟩
  | error e => exact hend.elim

/-- What is done to the globals that are no arrays, and to no index. -/
theorem scalars_simulates (hq : ∀ s, (f s).qh = s.qh ∧ (f s).qt = s.qt)
    (hplain : ∀ r : Ram, ({ r with g := f r.g } : Ram).plain = f r.plain) :
    Simulates (scalars f) f := by
  rintro s r ⟨hb, rfl⟩
  refine ⟨{ hb with qh := ?_, qt := ?_ }, hplain r⟩
  · exact (hq r.g).1 ▸ hb.qh
  · exact (hq r.g).2 ▸ hb.qt

end Rules

/-! ## The output queue -/

theorem getD_frames (r : Ram) (i : Nat) : r.plain.q.getD i {} = (r.q.items.getD i {}).frame := by
  show (r.q.items.map Slot.frame).getD i _ = _
  rw [List.getD_eq_getElem?_getD, List.getD_eq_getElem?_getD, List.getElem?_map]
  cases r.q.items[i]? <;> rfl

theorem slot_le {r : Ram} (hb : r.Bounded) (i : Nat) : (r.q.items.getD i {}).n ≤ UD := by
  rw [List.getD_eq_getElem?_getD]
  cases h : r.q.items[i]? with
  | none => exact Nat.zero_le _
  | some slot => exact hb.slots slot (List.mem_of_getElem? h)

/-- A slot is replaced. -/
theorem put_view {r : Ram} (hb : r.Bounded) (slot : Slot) (hn : slot.n ≤ UD) (i : Nat) :
    View { r.plain with q := r.plain.q.set i slot.frame } { r with q := r.q.put i slot } := by
  refine ⟨{ hb with slots := fun slot' hslot' => ?_ }, ?_⟩
  · rcases List.mem_or_eq_of_mem_set hslot' with h | rfl
    · exact hb.slots slot' h
    · exact hn
  · show ({ r.plain with q := (r.q.items.set i slot).map Slot.frame } : Fw) = _
    rw [List.map_set]
    rfl

/-- A copy to the beginning of an array. -/
theorem memcpy_array (dst b : Buf UInt8 UD) {n : Nat} (hn : n ≤ UD) :
    Returning (dst.memcpy 0 b 0 n) fun dst' => dst'.items.take n = b.items.take n := by
  refine (Buf.memcpy_front List.nil_prefix (show 0 = _ from rfl) b 0 (by omega) (by omega)).mono fun dst' h =>
    take_of_front h ?_
  rw [List.nil_append, List.length_take, List.drop_zero, b.length_items, Nat.min_eq_left hn]

theorem store_simulates (b : Buf UInt8 UD) {n : Nat} (hn : n ≤ UD) (event : Bool) :
    Simulates (store b n event) fun s => s.store (b.items.take n) event := by
  intro s
  refine Carries.read fun r hb hr => ?_
  subst hr
  refine Leads.lift_eq (r.q.load_eq hb.qt {}) ?_
  refine Leads.lift (memcpy_array _ b hn) fun bytes hbytes => ?_
  refine Leads.lift_eq (r.q.store_eq hb.qt _) (Leads.modify_bind ?_)
  have hput := put_view hb { b := bytes, n := n, event := event } hn r.g.qt
  have hframe : Slot.frame { b := bytes, n := n, event := event } = { b := b.items.take n, event := event } := by
    rw [Slot.frame]
    simp only [hbytes]
  rw [hframe] at hput
  refine Leads.modify ⟨{ hput.1 with qt := Nat.mod_lt _ (by decide) }, ?_⟩
  have hq : (r.q.put r.g.qt { b := bytes, n := n, event := event }).items.map Slot.frame =
      r.plain.q.set r.g.qt { b := b.items.take n, event := event } := congrArg Fw.q hput.2
  unfold plain at hq ⊢
  unfold Fw.store
  simp only [hq]

theorem slot_plain (r : Ram) (offset : Nat) :
    r.plain.slot offset = (r.q.items.getD ((r.g.qh + offset) % QD) {}).frame := getD_frames r _

theorem shift_simulates (offset : Nat) : Simulates (shift offset) fun s =>
    { s with q := s.q.set ((s.qh + offset) % QD) (s.slot (offset + 1)) } := by
  intro s
  refine Carries.read fun r hb hr => ?_
  subst hr
  refine Leads.lift_eq (r.q.load_eq (Nat.mod_lt _ (by decide)) {}) ?_
  refine Leads.lift_eq (r.q.store_eq (Nat.mod_lt _ (by decide)) _) ?_
  have hput := put_view hb _ (slot_le hb ((r.g.qh + offset + 1) % QD)) ((r.g.qh + offset) % QD)
  refine Leads.modify ?_
  beta_reduce
  rw [slot_plain]
  exact hput

theorem eventOffset_eq (r : Ram) (offsets : List Nat) :
    eventOffset r offsets = .ok (offsets.find? fun offset => (r.plain.slot offset).event) := by
  induction offsets with
  | nil => rfl
  | cons offset offsets ih =>
    rw [eventOffset, r.q.load_eq (Nat.mod_lt _ (by decide)) {}, List.find?_cons, slot_plain]
    generalize r.q.items.getD ((r.g.qh + offset) % QD) {} = slot
    obtain ⟨b, n, event⟩ := slot
    cases event with
    | true => rfl
    | false => exact ih

theorem note_simulates (call : Call) : Simulates (scalars fun s => s.note call) fun s => s.note call :=
  scalars_simulates (fun _ => ⟨rfl, rfl⟩) fun _ => rfl

theorem count_simulates (u : C → C) : Simulates (scalars fun s => s.count u) fun s => s.count u :=
  scalars_simulates (fun _ => ⟨rfl, rfl⟩) fun _ => rfl

theorem countRadio_simulates : Simulates (scalars Fw.countRadio) Fw.countRadio := count_simulates _

theorem countUsbBad_simulates : Simulates (scalars Fw.countUsbBad) Fw.countUsbBad := count_simulates _

theorem countAccepted_simulates : Simulates (scalars Fw.countAccepted) Fw.countAccepted := count_simulates _

theorem clearPending_simulates : Simulates (scalars Fw.clearPending) Fw.clearPending :=
  scalars_simulates (fun _ => ⟨rfl, rfl⟩) fun _ => rfl

theorem clearIrq_simulates : Simulates (scalars Fw.clearIrq) Fw.clearIrq :=
  scalars_simulates (fun _ => ⟨rfl, rfl⟩) fun _ => rfl

/-- The queue of the source, in which at most 274 bytes of a slot are used. -/
theorem putQ_simulates (b : Buf UInt8 UD) {n : Nat} (hn : n ≤ UD) (event : Bool) :
    Simulates (putQ b n event) fun s => s.putQ (b.items.take n) event := by
  intro s
  refine (note_simulates _ s).seq (Carries.read fun r hb hr => ?_)
  beta_reduce at hr ⊢
  unfold Fw.putQ
  rw [← hr]
  refine Leads.branch Iff.rfl (fun hfull => ?_) fun hroom => (store_simulates b hn event).leads hb rfl
  cases event with
  | true => exact (count_simulates _).leads hb rfl
  | false =>
    refine Leads.lift_eq (eventOffset_eq r _) ?_
    rw [if_neg Bool.false_ne_true, show r.plain.qn = r.g.qn from rfl]
    cases (List.range r.g.qn).find? fun offset => (r.plain.slot offset).event with
    | none => exact Leads.nop hb rfl
    | some eventOffset =>
      have hgap : Simulates (forEach (fun k => shift (eventOffset + k)) (List.range (r.g.qn - 1 - eventOffset)))
          fun s => (List.range (r.g.qn - 1 - eventOffset)).foldl
            (fun s k => { s with q := s.q.set ((s.qh + (eventOffset + k)) % QD) (s.slot (eventOffset + k + 1)) }) s :=
        Simulates.forEach (fun k => shift_simulates (eventOffset + k)) _
      have hback : Simulates (scalars fun s => { s with qt := (s.qt + QD - 1) % QD, qn := s.qn - 1 }) fun s =>
          { s with qt := (s.qt + QD - 1) % QD, qn := s.qn - 1 } := by
        rintro s r ⟨hb, rfl⟩
        exact ⟨{ hb with qt := Nat.mod_lt _ (by decide) }, rfl⟩
      exact (hgap.leads hb rfl).seq ((hback _).seq ((count_simulates _ _).seq (store_simulates b hn false _)))

/-- Of the array of 278 bytes `flush` uses at most 277: the encoded frame and the delimiter. -/
theorem flush_simulates (availableForWrite : Int) (written : Nat) :
    Simulates (flush availableForWrite written) fun s => s.flush availableForWrite written := by
  intro s
  refine Carries.read fun r hb hr => ?_
  subst hr
  beta_reduce
  unfold Fw.flush
  refine Leads.branch Iff.rfl (fun hempty => Leads.nop hb rfl) fun hsome => ?_
  have hload : r.q.load r.g.qh = .ok (r.q.items.getD r.g.qh {}) := r.q.load_eq hb.qh {}
  have hslot : r.plain.slot 0 = (r.q.items.getD r.g.qh {}).frame := by
    rw [slot_plain, Nat.add_zero, Nat.mod_eq_of_lt hb.qh]
  have hn := slot_le hb r.g.qh
  generalize r.q.items.getD r.g.qh {} = slot at hload hslot hn
  have hroom : slot.n + 1 + slot.n / 254 ≤ 276 := by
    simp only [UD] at hn
    omega
  refine Leads.lift_eq hload ?_
  refine Leads.lift (enc_returning slot.b hn _ (hroom.trans (by decide))) fun res hres => ?_
  obtain ⟨n, e⟩ := res
  obtain ⟨hsize, hbytes, hlength⟩ := hres
  simp only at hsize hbytes hlength
  have hframe : Firmware.enc (r.plain.slot 0).b = e.items.take n := by
    rw [hslot, hbytes]
    rfl
  have hUE : n < UE := by
    simp only [UE]
    omega
  have hwhole : (e.items.take n).length = n := by rw [hbytes, ← hlength]
  have hevent : (r.plain.slot 0).event = slot.event := by rw [hslot]; rfl
  simp only [hframe, hwhole, hevent]
  refine Leads.branch Iff.rfl (fun hbusy => Leads.nop hb rfl) fun hidle => ?_
  refine Leads.lift_eq (e.store_eq hUE 0) (Leads.lift_eq hload (Leads.lift_eq ((e.put n 0).slice_eq hUE) ?_))
  rw [take_put_last e hUE]
  refine Leads.seq ((note_simulates _).leads hb rfl) ?_
  rintro r' ⟨hb', hr'⟩
  refine ⟨{ hb' with qh := Nat.mod_lt _ (by decide) }, ?_⟩
  rw [← hr']
  rfl

/-! ## Responses -/

theorem take_all (p : Buf UInt8 m) : p.items.take m = p.items := List.take_of_length_le (le_of_eq p.length_items)

/-- A frame is built in an array of 274 bytes. -/
theorem frame_array (type : UInt8) (ses seq : Nat) (p : Buf UInt8 m) {pn : Nat} (hm : pn ≤ m) (hk : 18 + pn ≤ UD) :
    Returning (frame type ses seq p pn (.fill 0 : Buf UInt8 UD)) fun r => r.1 = 18 + pn ∧
      r.2.items.take r.1 = Firmware.frame type ses seq (p.items.take pn) := by
  refine (frame_returning type ses seq p hm _ hk).mono fun r ⟨hlength, hr⟩ => ⟨hlength, take_of_front hr ?_⟩
  rw [length_frame, List.length_take, p.length_items, Nat.min_eq_left hm, hlength]

/-- A response with a payload that fills an array. -/
theorem reply_simulates (type : UInt8) (seq : Nat) {p : Buf UInt8 m} (hk : 18 + m ≤ UD) (cache : Bool) {payload : Bytes}
    (hp : p.items = payload) : Simulates (reply type seq p m cache) fun s => s.reply type seq payload cache := by
  intro s
  refine Carries.read fun r hb hr => ?_
  subst hr
  refine Leads.lift (frame_array type r.g.session seq p (le_refl m) hk) fun res hres => ?_
  obtain ⟨z, b⟩ := res
  obtain ⟨hz, hbytes⟩ := hres
  simp only at hz hbytes ⊢
  rw [take_all, hp] at hbytes
  have hzUD : z ≤ UD := hz ▸ hk
  unfold Fw.reply
  rw [show r.plain.session = r.g.session from rfl, ← hbytes]
  refine Leads.seq ?_ (putQ_simulates b hzUD false _)
  cases cache with
  | false => exact Simulates.nop.leads hb rfl
  | true =>
    refine Leads.get ?_
    refine Leads.lift (memcpy_array r.lastResp b hzUD) fun resp hresp => ?_
    refine Leads.modify ⟨{ hb with lastRespN := hzUD }, ?_⟩
    unfold plain
    simp only [hresp]
    rfl

theorem error_simulates (seq code : Nat) (detail : Int) (type : UInt8) (cache : Bool) :
    Simulates (error seq code detail type cache) fun s => s.error seq code detail type cache := by
  rintro s r ⟨hb, rfl⟩
  refine Leads.lift (errorPayload_returning code detail type) (fun p hp => ?_) r rfl
  exact (reply_simulates Msg.err seq (by decide) cache hp).leads hb rfl

theorem errorFor_simulates (ses seq code : Nat) (detail : Int) (type : UInt8) :
    Simulates (errorFor ses seq code detail type) fun s => s.errorFor ses seq code detail type := by
  rintro s r ⟨hb, rfl⟩
  refine Leads.lift (errorPayload_returning code detail type) (fun p hp => ?_) r rfl
  refine Leads.lift (frame_array Msg.err ses seq p (le_refl 5) (by decide)) fun res hres => ?_
  obtain ⟨z, b⟩ := res
  obtain ⟨hz, hbytes⟩ := hres
  simp only at hz hbytes ⊢
  refine (putQ_simulates b (hz ▸ by decide) false).leads hb ?_
  rw [hbytes, take_all, hp]
  rfl

theorem saveReq_simulates (b : Buf UInt8 UD) {n : Nat} (hn : n ≤ UD) :
    Simulates (saveReq b n) fun s => s.saveReq (b.items.take n) := by
  intro s
  refine (note_simulates _ s).seq (Carries.read fun r hb hr => ?_)
  beta_reduce at hr ⊢
  refine Leads.lift (memcpy_array r.lastReq b hn) fun req hreq => ?_
  refine Leads.modify ⟨{ hb with lastReqN := hn }, ?_⟩
  unfold Fw.saveReq
  rw [← hr]
  unfold plain
  simp only [hreq]

theorem resetSession_simulates (ses : Nat) : Simulates (resetSession ses) fun s => s.resetSession ses := by
  rintro s r ⟨hb, rfl⟩
  exact ⟨{ hb with lastReqN := Nat.zero_le _, lastRespN := Nat.zero_le _ }, rfl⟩

theorem listen_simulates (hw : Hw) : Simulates (listen hw) (Fw.listen hw) := by
  refine scalars_simulates (fun s => ?_) fun r => ?_
  · unfold Fw.listen
    repeat' split
    all_goals exact ⟨rfl, rfl⟩
  · unfold Fw.listen
    by_cases hready : r.g.ready = false
    · rw [if_pos hready, if_pos (show r.plain.ready = false from hready)]
    · rw [if_neg hready, if_neg (show ¬ r.plain.ready = false from hready)]
      by_cases hrecv : hw.startReceive = radiolibErrNone
      · simp only [if_pos hrecv]
        rfl
      · simp only [if_neg hrecv]
        rfl

/-! ## The radio -/

theorem receivedHead_eq (b : Buf UInt8 AD) (n : Nat) :
    anyOf [.ok (n < 18), (· != 0x4d) <$> b.load 0, (· != 0x4c) <$> b.load 1, (· != V) <$> b.load 2,
      (· != 1) <$> b.load 3, (· != 0) <$> b.load 4, (· != 0) <$> b.load 5] =
    .ok (decide (n < 18 ∨ byteAt b.items 0 ≠ 0x4d ∨ byteAt b.items 1 ≠ 0x4c ∨ byteAt b.items 2 ≠ V ∨
      byteAt b.items 3 ≠ 1 ∨ byteAt b.items 4 ≠ 0 ∨ byteAt b.items 5 ≠ 0)) := by
  rw [load_byte b (show 0 < AD by decide), load_byte b (show 1 < AD by decide), load_byte b (show 2 < AD by decide),
    load_byte b (show 3 < AD by decide), load_byte b (show 4 < AD by decide), load_byte b (show 5 < AD by decide)]
  refine (anyOf_map [decide (n < 18), byteAt b.items 0 != 0x4d, byteAt b.items 1 != 0x4c, byteAt b.items 2 != V,
    byteAt b.items 3 != 1, byteAt b.items 4 != 0, byteAt b.items 5 != 0]).trans ?_
  congr 1
  rw [Bool.eq_iff_iff]
  simp

/-- The checksum is read only where the length is the one of the header, and so in the array. -/
theorem receivedTail_eq (b : Buf UInt8 AD) (n pn : Nat) :
    anyOf [.ok (pn == 0), .ok (pn > AM), .ok (n != 18 + pn), do return (← r16 b (n - 2)) != (← crc b (n - 2))] =
    .ok (decide (pn = 0 ∨ pn > AM ∨ n ≠ 18 + pn ∨
      Firmware.r16 (b.items.drop (n - 2)) ≠ Firmware.crc (b.items.take (n - 2)))) := by
  refine (anyOf_map_append [pn == 0, decide (pn > AM), n != 18 + pn] _).trans ?_
  by_cases hbad : pn = 0 ∨ pn > AM ∨ n ≠ 18 + pn
  · rw [if_pos (by simpa using hbad), decide_eq_true]
    tauto
  · rw [if_neg (by simpa using hbad)]
    have hn : n - 2 + 2 ≤ AD := by
      simp only [AM, AD] at hbad ⊢
      omega
    rw [r16_eq b hn, crc_eq b (by omega)]
    refine (anyOf_map [Firmware.r16 (b.items.drop (n - 2)) != Firmware.crc (b.items.take (n - 2))]).trans ?_
    congr 1
    rw [Bool.eq_iff_iff]
    simp only [List.any_cons, List.any_nil, Bool.or_false, id_eq, bne_iff_ne, decide_eq_true_iff]
    tauto

/-- Whatever length the driver reports, a packet is taken only if the length in its header is that length, and at most
200. -/
theorem received_simulates (hw : Hw) (b : Buf UInt8 AD) (n : Nat) :
    Simulates (received hw b n) (Fw.received hw b.items n) := by
  rintro s r ⟨hb, rfl⟩
  refine Leads.lift_eq (receivedHead_eq b n) ?_ r rfl
  refine Leads.branch decide_eq_true_iff (fun hbad => (count_simulates _).leads hb rfl) fun hhead => ?_
  refine Leads.lift_eq (r16_eq b (by decide)) (Leads.lift_eq (receivedTail_eq b n _) ?_)
  generalize Firmware.r16 (b.items.drop 14) = pn
  refine Leads.branch decide_eq_true_iff (fun hbad => (count_simulates _).leads hb rfl) fun htail => ?_
  rw [decide_eq_true_iff] at htail
  refine Leads.seq ((count_simulates _).leads hb rfl) (Carries.read fun r' hb' hr' => ?_)
  rw [← hr']
  refine Leads.branch Iff.rfl (fun hclosed => Leads.nop hb' rfl) fun hactive => ?_
  have hAM : pn ≤ AM := by omega
  have hUM : 16 + pn ≤ UM ∧ 18 + (16 + pn) ≤ UD := by
    simp only [AM, UM, UD] at hAM ⊢
    omega
  refine Leads.lift (eventPayload_returning hw b hAM) fun p hp => Leads.get ?_
  refine Leads.lift (frame_array Msg.rxEvent _ 0 p hUM.1 hUM.2) fun res hres => ?_
  obtain ⟨z, f⟩ := res
  obtain ⟨hz, hbytes⟩ := hres
  simp only at hz hbytes ⊢
  refine (putQ_simulates f (hz ▸ hUM.2) true).leads hb' ?_
  rw [hbytes, hp]
  rfl

theorem txDone_simulates (hw : Hw) : Simulates (txDone hw) (Fw.txDone hw) := by
  intro s
  have hdown : Simulates (scalars fun s => (s.note (.finishTransmit hw.finishTransmit)).setRs .down) fun s =>
      (s.note (.finishTransmit hw.finishTransmit)).setRs .down := scalars_simulates (fun _ => ⟨rfl, rfl⟩) fun _ => rfl
  refine (hdown s).seq (Carries.branch (fun hdone => ?_) fun hfailed => ?_)
  · refine (count_simulates _ _).seq (Carries.read fun r hb hr => ?_)
    beta_reduce at hr
    rw [← hr]
    refine Leads.branch Iff.rfl (fun hown => ?_) fun hforeign => Leads.nop hb rfl
    refine Leads.lift (txokPayload_returning hw r.g) fun p hp => ?_
    exact Leads.seq (clearPending_simulates.leads hb rfl) (reply_simulates Msg.txok _ (by decide) true hp _)
  · refine (countRadio_simulates _).seq (Carries.read fun r hb hr => ?_)
    rw [← hr]
    refine Leads.branch Iff.rfl (fun hown => ?_) fun hforeign => Leads.nop hb rfl
    exact Leads.seq (clearPending_simulates.leads hb rfl) (error_simulates _ _ _ _ true _)

/-- What `readData` leaves in the array is what the model without arrays reads. -/
theorem radioTask_simulates (hw : Hw) : Simulates (radioTask hw) (Fw.radioTask hw) := by
  intro s
  refine Carries.read fun r hb hr => ?_
  subst hr
  refine Leads.branch Iff.rfl (fun hidle => Leads.nop hb rfl) fun hready => ?_
  refine Leads.seq (clearIrq_simulates.leads hb rfl) ?_
  refine Carries.branch (fun htransmitting => ?_) fun hlistening => Carries.branch (fun hread => ?_) fun hfailed => ?_
  · exact (txDone_simulates hw _).seq (listen_simulates hw _)
  · exact (received_simulates hw (readData hw.packet) _ _).seq (listen_simulates hw _)
  · exact (countRadio_simulates _).seq (listen_simulates hw _)

theorem txWatchdog_simulates (hw : Hw) : Simulates (txWatchdog hw) (Fw.txWatchdog hw) := by
  intro s
  refine Carries.read fun r hb hr => ?_
  subst hr
  refine Leads.branch Iff.rfl (fun hquiet => Leads.nop hb rfl) fun hstuck => ?_
  have hdown : Simulates (scalars fun s => (s.countRadio.note .standby).setRs .down) fun s =>
      (s.countRadio.note .standby).setRs .down := scalars_simulates (fun _ => ⟨rfl, rfl⟩) fun _ => rfl
  refine Leads.seq (hdown.leads hb rfl) ?_
  have hlisten := (Carries.branch (c := r.g.ownTx = true)
    (fun _ => (clearPending_simulates _).seq (error_simulates r.g.txSeq E.radio radiolibErrUnknown Msg.send true _))
    fun _ => Simulates.nop ((r.plain.countRadio.note .standby).setRs .down)).seq (listen_simulates hw _)
  rw [apply_ite (Fw.listen hw)] at hlisten
  exact hlisten

/-! ## Requests -/

theorem info_simulates (hw : Hw) (seq : Nat) : Simulates (info hw seq) (Fw.info hw seq) := by
  intro s
  refine Carries.read fun r hb hr => ?_
  subst hr
  refine Leads.lift (infoPayload_returning hw r.g) fun p hp => ?_
  exact (reply_simulates Msg.info seq (by decide) true hp).leads hb rfl

theorem status_simulates (hw : Hw) (seq : Nat) : Simulates (status hw seq) (Fw.status hw seq) := by
  intro s
  refine Carries.read fun r hb hr => ?_
  subst hr
  refine Leads.lift (statusPayload_returning hw r.g) fun p hp => ?_
  exact (reply_simulates Msg.stat seq (by decide) true hp).leads hb rfl

theorem diagnostics_simulates (seq : Nat) : Simulates (diagnostics seq) (Fw.diagnostics seq) := by
  intro s
  refine Carries.read fun r hb hr => ?_
  subst hr
  refine Leads.lift (diagnosticsPayload_returning r.g) fun p hp => ?_
  exact (reply_simulates Msg.diagnostics seq (by decide) true hp).leads hb rfl

/-- The payload of a packet has at most 200 bytes, and lies in the array of the request. -/
theorem sendAir_simulates (hw : Hw) (b : Buf UInt8 UD) {pn : Nat} (hpn : pn ≤ AM) (seq : Nat) :
    Simulates (sendAir hw b pn seq) (Fw.sendAir hw ((b.items.drop 16).take pn) seq) := by
  intro s
  refine Carries.read fun r hb hr => ?_
  subst hr
  refine Leads.branch Iff.rfl (fun hdown => (error_simulates _ _ _ _ true).leads hb rfl) fun hready => ?_
  refine Leads.branch Iff.rfl (fun hbusy => (error_simulates _ _ _ _ true).leads hb rfl) fun hidle => ?_
  have hfits : 16 + pn ≤ UD ∧ 18 + pn ≤ AD := by
    simp only [AM, UD, AD] at hpn ⊢
    omega
  refine Leads.lift (airPacket_returning r.g.boot (nextAir r.g.airNext).1 b hfits.1 r.txPacket hpn)
    fun packet hpacket => ?_
  refine Leads.modify_bind ?_
  have hbytes : (r.plain.prepareTx hw ((b.items.drop 16).take pn) seq).txPacket = packet.items.take (18 + pn) :=
    hpacket.symm
  refine Leads.seq (t := r.plain.prepareTx hw ((b.items.drop 16).take pn) seq) ?_ ?_
  · rintro _ rfl
    refine ⟨{ hb with }, ?_⟩
    show ({ r.plain with
      txPacket := packet.items.take (18 + pn), airNext := (nextAir r.g.airNext).2, irq := false, rs := .transmitting
      pending := true, txSession := r.g.session, txSeq := seq, txAir := (nextAir r.g.airNext).1, txStart := hw.micros
      txStartedMillis := hw.millis } : Fw) = _
    rw [hpacket]
    rfl
  · refine Triple.lift_bind (packet.slice_eq hfits.2) ?_
    rw [← hbytes]
    refine Carries.seq (note_simulates _ _) (Carries.branch (fun hfailed => ?_) fun hstarted => count_simulates _ _)
    have hdown : Simulates (scalars fun s => (s.countRadio.setRs .down).clearPending) fun s =>
      (s.countRadio.setRs .down).clearPending := scalars_simulates (fun _ => ⟨rfl, rfl⟩) fun _ => rfl
    exact (hdown _).seq ((error_simulates _ _ _ _ true _).seq (listen_simulates hw _))

theorem accept_simulates (b : Buf UInt8 UD) {n : Nat} (hn : n ≤ UD) {seq : Nat} (hseq : seq = seqOf (b.items.take n)) :
    Simulates (accept b n seq) fun s => s.accept (b.items.take n) := by
  subst hseq
  have hlast : Simulates (scalars fun s => { s with lastSeq := seqOf (b.items.take n) }) fun s =>
    { s with lastSeq := seqOf (b.items.take n) } := scalars_simulates (fun _ => ⟨rfl, rfl⟩) fun _ => rfl
  exact fun s => (saveReq_simulates b hn s).seq (hlast _)

/-- The kept request is compared only if it has the same length. -/
theorem retry_simulates (b : Buf UInt8 UD) {n : Nat} (hn : n ≤ UD) (t : UInt8) (seq : Nat) :
    Simulates (retry b n t seq) fun s =>
      if s.haveLast = true ∧
        b.items.take n = s.lastReq then s.putQ s.lastResp false else s.error seq E.reused 0 t false := by
  intro s
  refine Carries.read fun r hb hr => ?_
  subst hr
  have hsame : (if r.g.haveLast = true ∧ n = r.lastReqN then b.memcmp r.lastReq n else .ok false) =
      .ok (decide (r.g.haveLast = true ∧ b.items.take n = r.plain.lastReq)) := by
    have hlength : b.items.take n = r.lastReq.items.take r.lastReqN → n = r.lastReqN := by
      intro h
      have hlength := congrArg List.length h
      rwa [List.length_take, List.length_take, b.length_items, r.lastReq.length_items, Nat.min_eq_left hn,
        Nat.min_eq_left hb.lastReqN] at hlength
    by_cases hlast : r.g.haveLast = true ∧ n = r.lastReqN
    · rw [if_pos hlast, Buf.memcmp_eq hn hn]
      congr 2
      show (_ : Prop) = (r.g.haveLast = true ∧ b.items.take n = r.lastReq.items.take r.lastReqN)
      rw [hlast.1, ← hlast.2]
      simp
    · rw [if_neg hlast]
      symm
      congr 1
      rw [decide_eq_false_iff_not]
      exact fun h => hlast ⟨h.1, hlength h.2⟩
  refine Leads.lift_eq hsame (Leads.branch decide_eq_true_iff (fun hretry => ?_) fun hreused => ?_)
  · exact (putQ_simulates r.lastResp hb.lastRespN false).leads hb rfl
  · exact (error_simulates _ _ _ _ false).leads hb rfl

theorem handleHello_simulates (hw : Hw) (b : Buf UInt8 UD) {n : Nat} (hn : n ≤ UD) :
    Simulates (handleHello hw b n Msg.hello (sessionOf (b.items.take n)) (seqOf (b.items.take n))
      (lengthOf (b.items.take n)))
      (Fw.handleHello hw (b.items.take n)) := by
  intro s
  refine Carries.read fun r hb hr => ?_
  subst hr
  have hgreet : Simulates (do
      accept b n (seqOf (b.items.take n))
      scalars Fw.countAccepted
      info hw (seqOf (b.items.take n))) fun s => (s.accept (b.items.take n)).countAccepted.info hw
        (seqOf (b.items.take n)) :=
    fun s => (accept_simulates b hn rfl s).seq ((countAccepted_simulates _).seq (info_simulates hw _ _))
  refine Leads.branch Iff.rfl (fun hlong => (errorFor_simulates _ _ _ _ _).leads hb rfl) fun hempty => ?_
  refine Leads.branch Iff.rfl (fun hbusy => (error_simulates _ _ _ _ false).leads hb rfl) fun hidle => ?_
  refine Leads.branch Iff.rfl (fun hnew => ?_) fun hsame => ?_
  · exact Leads.seq ((resetSession_simulates _).leads hb rfl) (hgreet _)
  refine Leads.branch Iff.rfl (fun hstale => (error_simulates _ _ _ _ false).leads hb rfl) fun hseq => ?_
  refine Leads.branch Iff.rfl (fun hlast => ?_) fun hnext => hgreet.leads hb rfl
  exact (retry_simulates b hn _ _).leads hb rfl

/-- A payload in the array is the payload of the frame: the frame has exactly the length its header says. -/
theorem serve_simulates (hw : Hw) (b : Buf UInt8 UD) {n : Nat} (hn : n ≤ UD)
    (hlength : lengthOf (b.items.take n) + 18 = n) :
    Simulates (serve hw b n (typeOf (b.items.take n)) (seqOf (b.items.take n)) (lengthOf (b.items.take n)))
      (Fw.serve hw (b.items.take n)) := by
  have hpayload : (b.items.drop 16).take (lengthOf (b.items.take n)) = payloadOf (b.items.take n) := by
    rw [payloadOf, List.drop_take, List.take_take, Nat.min_eq_left (by omega)]
  have hforget : Simulates (scalars fun s => { s with haveLast := false }) fun s => { s with haveLast := false } :=
    scalars_simulates (fun _ => ⟨rfl, rfl⟩) fun _ => rfl
  intro s
  refine (accept_simulates b hn rfl s).seq ((hforget _).seq ?_)
  refine Carries.branch (fun hsend => Carries.branch (fun hbad => error_simulates _ _ _ _ true _) fun hpn => ?_)
    fun hnosend => ?_
  · refine (countAccepted_simulates _).seq ((count_simulates _ _).seq ?_)
    rw [← hpayload]
    exact sendAir_simulates hw b (by omega) _ _
  refine Carries.branch (fun hstatus => Carries.branch (fun hbad => error_simulates _ _ _ _ true _) fun hpn => ?_)
    fun hnostatus => ?_
  · exact (countAccepted_simulates _).seq (status_simulates hw _ _)
  refine Carries.branch (fun hdiagnostics => Carries.branch (fun hbad => error_simulates _ _ _ _ true _) fun hpn => ?_)
    fun hother => error_simulates _ _ _ _ true _
  exact (countAccepted_simulates _).seq (diagnostics_simulates _ _)

theorem handleRequest_simulates (hw : Hw) (b : Buf UInt8 UD) {n : Nat} (hn : n ≤ UD)
    (hlength : lengthOf (b.items.take n) + 18 = n) :
    Simulates (handleRequest hw b n (typeOf (b.items.take n)) (sessionOf (b.items.take n)) (seqOf (b.items.take n))
      (lengthOf (b.items.take n))) (Fw.handleRequest hw (b.items.take n)) := by
  intro s
  refine Carries.read fun r hb hr => ?_
  subst hr
  refine Leads.branch Iff.rfl (fun hwrong => (errorFor_simulates _ _ _ _ _).leads hb rfl) fun hown => ?_
  refine Leads.branch Iff.rfl (fun hstale => (error_simulates _ _ _ _ false).leads hb rfl) fun hseq => ?_
  refine Leads.branch Iff.rfl (fun hlast => ?_) fun hnext => ?_
  · refine Leads.branch Iff.rfl (fun hbusy => (error_simulates _ _ _ _ false).leads hb rfl) fun hidle => ?_
    exact (retry_simulates b hn _ _).leads hb rfl
  · refine Leads.branch Iff.rfl (fun hbusy => (error_simulates _ _ _ _ false).leads hb rfl) fun hidle => ?_
    exact (serve_simulates hw b hn hlength).leads hb rfl

/-- The fields are read only where the length covers them. -/
theorem handleChecks_eq (b : Buf UInt8 UD) {n : Nat} (hn : n ≤ UD) :
    anyOf [.ok (n < 18), (· != 0x4d) <$> b.load 0, (· != 0x55) <$> b.load 1, (· != V) <$> b.load 2,
      (· != 0) <$> b.load 4, (· != 0) <$> b.load 5, (· + 18 != n) <$> r16 b 14,
      do return (← r16 b (n - 2)) != (← crc b (n - 2))] = .ok (!wellFormed (b.items.take n)) := by
  have hlength : (b.items.take n).length = n := by rw [List.length_take, b.length_items, Nat.min_eq_left hn]
  by_cases hshort : n < 18
  · refine (anyOf_map_append [decide (n < 18)] _).trans ?_
    rw [if_pos (by simpa using hshort)]
    simp [wellFormed, hlength, hshort]
  · have htake : b.items.take (n - 2) = (b.items.take n).take (n - 2) := by
      rw [List.take_take, Nat.min_eq_left (Nat.sub_le n 2)]
    rw [load_taken b (show 0 < n by omega) hn, load_taken b (show 1 < n by omega) hn,
      load_taken b (show 2 < n by omega) hn, load_taken b (show 4 < n by omega) hn,
      load_taken b (show 5 < n by omega) hn, r16_taken b (show 14 + 2 ≤ n by omega) hn,
      r16_taken b (show n - 2 + 2 ≤ n by omega) hn, crc_eq b (show n - 2 ≤ UD by omega), htake]
    generalize b.items.take n = a at hlength
    refine (anyOf_map [decide (n < 18), byteAt a 0 != 0x4d, byteAt a 1 != 0x55, byteAt a 2 != V, byteAt a 4 != 0,
      byteAt a 5 != 0, lengthOf a + 18 != n, Firmware.r16 (a.drop (n - 2)) != Firmware.crc (a.take (n - 2))]).trans ?_
    congr 1
    rw [Bool.eq_iff_iff]
    simp only [wellFormed, hlength, List.any_cons, List.any_nil, Bool.or_false, id_eq, Bool.or_eq_true,
      decide_eq_true_iff, bne_iff_ne, Bool.not_eq_true', Bool.and_eq_false_iff, decide_eq_false_iff_not,
      beq_eq_false_iff_ne, ne_eq, not_le, or_assoc]

/-- The frame is not longer than the array of `dec`. -/
theorem handle_simulates (hw : Hw) (b : Buf UInt8 UD) {n : Nat} (hn : n ≤ UD) :
    Simulates (handle hw b n) (Fw.handle hw (b.items.take n)) := by
  rintro s r ⟨hb, rfl⟩
  refine Leads.lift_eq (handleChecks_eq b hn) ?_ r rfl
  refine Leads.branch (by rw [Bool.not_eq_true']) (fun hbad => countUsbBad_simulates.leads hb rfl) fun hgood => ?_
  rw [Bool.not_eq_true', Bool.not_eq_false] at hgood
  have hlength : (b.items.take n).length = n := by rw [List.length_take, b.length_items, Nat.min_eq_left hn]
  simp only [wellFormed, hlength, Bool.and_eq_true, decide_eq_true_iff, beq_iff_eq] at hgood
  obtain ⟨⟨⟨⟨⟨⟨⟨hlong, -⟩, -⟩, -⟩, -⟩, -⟩, hsize⟩, -⟩ := hgood
  refine Leads.lift_eq (load_taken b (show 3 < n by omega) hn)
    (Leads.lift_eq (r32_taken b (show 6 + 4 ≤ n by omega) hn) ?_)
  refine Leads.lift_eq (r32_taken b (show 10 + 4 ≤ n by omega) hn)
    (Leads.lift_eq (r16_taken b (show 14 + 2 ≤ n by omega) hn) ?_)
  refine Leads.branch Iff.rfl (fun hzero => countUsbBad_simulates.leads hb rfl) fun hnonzero => ?_
  refine Leads.seq ((count_simulates _).leads hb rfl) ?_
  refine Carries.branch (fun hhello => ?_) fun hrequest => handleRequest_simulates hw b hn hsize _
  rw [hhello]
  exact handleHello_simulates hw b hn _

theorem length_inb {r : Ram} (hb : r.Bounded) : r.plain.inb.length = r.inN := by
  show (r.inb.items.take r.inN).length = r.inN
  rw [List.length_take, r.inb.length_items, Nat.min_eq_left hb.inN]

/-- A byte is stored only where there is room; the frame it ends is handled if `dec` takes it. -/
theorem usbByte_simulates (hw : Hw) (z : UInt8) : Simulates (usbByte hw z) (Fw.usbByte hw z) := by
  intro s
  refine Carries.read fun r hb hr => ?_
  subst hr
  have hlength := length_inb hb
  refine Leads.branch Iff.rfl (fun hend => ?_) fun hbyte => ?_
  · have hclose : ∀ t : Fw, Carries t (modify fun r => { r with inN := 0, g := { r.g with «over» := false } })
        { t with inb := [], «over» := false } := by
      rintro _ r' ⟨hb', rfl⟩
      exact ⟨{ hb' with inN := Nat.zero_le _ }, rfl⟩
    refine Leads.seq (Leads.branch ?_ (fun hframe => ?_) fun hnothing => Leads.nop hb rfl) (hclose _)
    · rw [ne_eq, ne_eq, ← List.length_eq_zero_iff, hlength]
      rfl
    refine Leads.lift (dec_returning r.inb hb.inN (.fill 0)) fun res hres => ?_
    rw [show r.plain.inb = r.inb.items.take r.inN from rfl]
    cases hdec : Firmware.dec (r.inb.items.take r.inN) with
    | none =>
      rw [hdec] at hres
      subst hres
      exact countUsbBad_simulates.leads hb rfl
    | some out =>
      rw [hdec] at hres
      obtain ⟨hout, b, rfl, hb'⟩ := hres
      refine (handle_simulates hw b hout).leads hb ?_
      rw [take_of_front hb' rfl]
  refine Leads.branch Iff.rfl (fun hover => Leads.nop hb rfl) fun hopen => ?_
  refine Leads.branch (by rw [hlength]) (fun hfull => ?_) fun hroom => ?_
  · have hover : Simulates (scalars fun s => { s with «over» := true }.countUsbBad) fun s =>
      { s with «over» := true }.countUsbBad := scalars_simulates (fun _ => ⟨rfl, rfl⟩) fun _ => rfl
    exact hover.leads hb rfl
  · have hin : r.inN < UE := Nat.lt_of_le_of_ne hb.inN hroom
    refine Leads.lift_eq (r.inb.store_eq hin z) (Leads.modify ⟨{ hb with inN := hin }, ?_⟩)
    unfold plain
    simp only [take_put_last r.inb hin z]

/-! ## Start and steps -/

/-- Nothing is in the arrays at the start: every length is zero. -/
theorem plain_start (g : Fw) : ({ g := g } : Ram).plain =
    { g with q := List.replicate QD {}, inb := [], lastReq := [], lastResp := [], txPacket := [] } := by
  unfold plain
  simp only [List.take_zero]
  rfl

theorem bounded_start {g : Fw} (hg : g.qh < QD ∧ g.qt < QD) : ({ g := g } : Ram).Bounded where
  qh := hg.1
  qt := hg.2
  slots slot hslot := by
    rw [List.eq_of_mem_replicate hslot]
    exact Nat.zero_le _
  inN := Nat.zero_le _
  lastReqN := Nat.zero_le _
  lastRespN := Nat.zero_le _

theorem setup_simulates (d : Board) {r : Ram} (hr : r = {}) : Leads r (setup d) (Firmware.setup d) := by
  unfold setup Firmware.setup
  rw [protocolSelfTest_eq]
  generalize (if d.boot % 2 ^ 32 = 0 then 1 else d.boot % 2 ^ 32) = boot
  generalize (if d.airNext % 2 ^ 32 = 0 then 1 else d.airNext % 2 ^ 32) = airNext
  generalize Firmware.protocolSelfTest = passed
  have hstart : Leads r (scalars fun _ => { boot := boot, airNext := airNext, mac := d.mac })
      { boot := boot, airNext := airNext, mac := d.mac } := by
    rw [hr]
    exact Leads.modify ⟨bounded_start ⟨Nat.zero_lt_succ _, Nat.zero_lt_succ _⟩, plain_start _⟩
  refine hstart.seq (Triple.lift_bind rfl ?_)
  refine Carries.branch (fun hfailed => countRadio_simulates _) fun hpassed => ?_
  refine Carries.branch (fun hbegun => ?_) fun hdown => countRadio_simulates _
  have hready : Simulates (scalars fun s => { s with ready := true }) fun s => { s with ready := true } :=
    scalars_simulates (fun _ => ⟨rfl, rfl⟩) fun _ => rfl
  exact (hready _).seq (listen_simulates d.hw _)

theorem perform_simulates : ∀ i : Job, Simulates (perform i) i.perform
  | .usbByte hw z => usbByte_simulates hw z
  | .isr => scalars_simulates (fun _ => ⟨rfl, rfl⟩) fun _ => rfl
  | .radioTask hw => radioTask_simulates hw
  | .txWatchdog hw => txWatchdog_simulates hw
  | .flush availableForWrite written => flush_simulates availableForWrite written

-- the self test is not run where `setup` is an argument
attribute [local irreducible] setup

/-- A run from the start returns, and ends in a view of what the tasks do without arrays. -/
theorem run_leads (d : Board) (is : List Job) {start : Ram} (hstart : start = {}) :
    Leads start (do
      setup d
      forEach perform is) (is.foldl (fun s i => i.perform s) (Firmware.setup d)) :=
  (setup_simulates d hstart).seq (Simulates.forEach perform_simulates is _)

/-- No run leaves an array, whatever bytes come from USB and whatever packets and lengths from the radio: it returns. A
queued frame has at most 274 bytes, and the arrays hold up to their lengths what the byte strings of `Fw` hold. -/
theorem buffers_in_bounds (d : Board) (is : List Job) :
    ∃ r, (do
        setup d
        forEach perform is) ({} : Ram) = (.ok (), r) ∧
      (∀ slot ∈ r.q.items, slot.n ≤ 274) ∧ r.plain = is.foldl (fun s i => i.perform s) (Firmware.setup d) := by
  obtain ⟨r, hrun, hbounded, hplain⟩ := (run_leads d is rfl).returns
  exact ⟨r, hrun, hbounded.slots, hplain⟩

end Ram

end LoraLink.Firmware
