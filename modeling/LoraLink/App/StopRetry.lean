import LoraLink.App.Stop

/-!
# Answers that are kept, and answers that are not

What `StopCache` says to a request that it has seen before. An answer stays in the cache for the next 63 answers that
are stored, and what an old id is told after that depends on the request.

- `apply_stores`: a call leaves the cache as it is, or puts one answer behind all others;
- `stop_retry`: a request whose answer is kept is answered the same way, and nothing changes;
- `stale_id_iff`: which requests with an old id are told that it is old.
-/

namespace LoraLink.Application

namespace StopCache

/-! ## Answers are stored -/

/-- The key of a request. -/
def requestKey (f : Frame) : Int × Int := (f.senderSession, f.messageId)

/-- The call puts its answer into the cache. -/
def stores (x : Move StopCache Call) : Bool :=
  match x.input with
  | .apply f => (x.before.cache.lookup (requestKey f)).isNone && (x.after.cache.lookup (requestKey f)).isSome
  | .resetMockState => false

/-- `d` is stored as the newest of 64 answers. -/
structure Puts (f : Frame) (d : StopDecision) (c c' : StopCache) : Prop where
  cache : c'.cache = (c.cache ++ [(requestKey f, (f.body, d.result, d.state))]).drop
    ((c.cache ++ [(requestKey f, (f.body, d.result, d.state))]).length - 64)
  state : d.state = c'.state

variable {c : StopCache} {f : Frame}

theorem popKey_new {l : List ((Int × Int) × (Bytes × AckResult × MockState))} {key : Int × Int}
    (h : l.lookup key = none) : popKey l key = l := by
  apply List.filter_eq_self.mpr
  intro p hp
  have hne : p.1 ≠ key := fun heq => lookup_eq_none.mp h (heq ▸ List.mem_map_of_mem hp)
  simpa using hne

theorem puts_remember (result : AckResult) (h : c.cache.lookup (requestKey f) = none) :
    Puts f (c.remember f result).1 c (c.remember f result).2 := by
  constructor
  · simp only [remember]
    rw [show (f.senderSession, f.messageId) = requestKey f from rfl, popKey_new h]
  · rfl

theorem applyNew_puts (h : c.cache.lookup (requestKey f) = none) :
    c.applyNew f = ({ result := .staleId, state := c.state, appliedNow := false }, c) ∨
      Puts f (c.applyNew f).1 c (c.applyNew f).2 := by
  unfold applyNew
  rcases decodeStop f.body with _ | request <;> simp only
  · exact Or.inr (puts_remember _ h)
  · split
    · exact Or.inr (puts_remember _ h)
    · split
      · exact Or.inr (puts_remember _ h)
      · split
        · exact Or.inr (puts_remember _ h)
        · split
          · exact Or.inl rfl
          · split
            · have hputs := puts_remember
                (c := { c with highWater := setKey c.highWater f.senderSession f.messageId }) .alreadyStopped h
              exact Or.inr ⟨hputs.cache, hputs.state⟩
            · have hputs := puts_remember
                (c := { c with highWater := setKey c.highWater f.senderSession f.messageId, state := .stopped,
                               applyCount := c.applyCount + 1 }) .applied h
              exact Or.inr ⟨hputs.cache, hputs.state⟩

/-- A call leaves the cache as it is, or puts one answer behind all others. -/
theorem apply_stores (f : Frame) (c : StopCache) :
    (c.apply f).2.cache = c.cache ∨
      c.cache.lookup (requestKey f) = none ∧ ∃ d, (c.apply f).1 = .ok d ∧ Puts f d c (c.apply f).2 := by
  unfold apply
  split
  · exact Or.inl rfl
  · split
    · split
      · exact Or.inl rfl
      · exact Or.inl rfl
    · rename_i hnone
      rcases applyNew_puts hnone with hstale | hputs
      · rw [hstale]
        exact Or.inl rfl
      · exact Or.inr ⟨hnone, (c.applyNew f).1, rfl, hputs⟩

/-- What is stored can be looked up, behind no other answer. -/
theorem Puts.recent {d : StopDecision} {c' : StopCache} (h : Puts f d c c')
    (hnew : c.cache.lookup (requestKey f) = none) : Recent c'.cache (requestKey f) (f.body, d.result, d.state) 0 := by
  rw [h.cache]
  exact recent_last hnew _ (by decide)

/-- A call that stores does so with the answer it gives. -/
theorem puts_of_stores (h : stores ⟨c, .apply f, (c.apply f).2⟩ = true) :
    c.cache.lookup (requestKey f) = none ∧ ∃ d, (c.apply f).1 = .ok d ∧ Puts f d c (c.apply f).2 := by
  simp only [stores, Bool.and_eq_true] at h
  obtain ⟨hnone, hsome⟩ := h
  rcases apply_stores f c with hkeep | hputs
  · rw [hkeep, Option.isSome_iff_ne_none] at hsome
    exact absurd (Option.isNone_iff_eq_none.mp hnone) hsome
  · exact hputs

/-- A call that does not store leaves the cache as it is. -/
theorem cache_of_not_stores (call : Call) (h : stores ⟨c, call, next call c⟩ = false) :
    (next call c).cache = c.cache := by
  cases call with
  | resetMockState => rfl
  | apply f =>
    rcases apply_stores f c with hkeep | ⟨hnone, d, -, hputs⟩
    · exact hkeep
    · have hsome : (c.apply f).2.cache.lookup (requestKey f) = some (f.body, d.result, d.state) :=
        (hputs.recent hnone).lookup
      simp [stores, next, hnone, hsome] at h

/-! ## Answers are kept -/

variable {key : Int × Int} {value : Bytes × AckResult × MockState} {n : Nat}

theorem recent_next (call : Call) (h : Recent c.cache key value n)
    (hn : n + (if stores ⟨c, call, next call c⟩ then 1 else 0) < 64) :
    Recent (next call c).cache key value (n + (if stores ⟨c, call, next call c⟩ then 1 else 0)) := by
  cases hstores : stores ⟨c, call, next call c⟩ with
  | false =>
    rw [cache_of_not_stores call hstores]
    exact h.mono (Nat.le_add_right _ _)
  | true =>
    rw [hstores, if_pos rfl] at hn
    cases call with
    | resetMockState => cases hstores
    | apply f =>
      obtain ⟨-, d, -, hputs⟩ := puts_of_stores hstores
      rw [if_pos rfl, show (next (.apply f) c).cache = _ from hputs.cache]
      exact h.push hn _

/-- An answer is kept while fewer than 64 others are stored. -/
theorem recent_run (calls : List Call) (h : Recent c.cache key value n)
    (hn : n + ((trace next c calls).filter stores).length < 64) :
    Recent (run next c calls).cache key value (n + ((trace next c calls).filter stores).length) := by
  induction calls generalizing c n with
  | nil => exact h
  | cons call calls ih =>
    have hcount : ((trace next c (call :: calls)).filter stores).length =
        (if stores ⟨c, call, next call c⟩ then 1 else 0) +
          ((trace next (next call c) calls).filter stores).length := by
      rw [trace, List.filter_cons]
      split
      · rw [List.length_cons, Nat.add_comm]
      · rw [Nat.zero_add]
    rw [hcount, ← Nat.add_assoc] at hn ⊢
    exact ih (recent_next call h (by omega)) hn

/-! ## Retries -/

/-- What is said to a request whose key is in the cache. -/
theorem apply_cached {g : Frame} {body : Bytes} {result : AckResult} {state : MockState} (htype : g.typ = stopRequest)
    (h : c.cache.lookup (requestKey g) = some (body, result, state)) :
    c.apply g = if g.body = body then (.ok { result := result, state := state, appliedNow := false }, c)
      else (.ok { result := .idConflict, state := c.state, appliedNow := false }, c) := by
  unfold apply
  rw [if_neg (not_not.mpr htype), show (g.senderSession, g.messageId) = requestKey g from rfl, h]
  simp only
  by_cases hbody : g.body = body
  · rw [if_pos hbody, if_neg (not_not.mpr hbody.symm)]
  · rw [if_neg hbody, if_pos (Ne.symm hbody)]

/-- **STOP retries are idempotent.** In a run from any state a request `f` was answered by a call that stored the
answer, and fewer than 64 answers have been stored since. A frame with the same key and body is then given that answer
again, one with another body is told of the conflict, and neither changes anything; what is no STOP request is
refused. -/
theorem stop_retry {c₀ : StopCache} {calls : List Call} {T₁ T₂ : List (Move StopCache Call)} {x : Move StopCache Call}
    (hT : trace next c₀ calls = T₁ ++ x :: T₂) {f : Frame} (hf : x.input = .apply f) {d : StopDecision}
    (hd : (x.before.apply f).1 = .ok d) (hstored : stores x = true) (hfew : (T₂.filter stores).length < 64)
    {g : Frame} (hkey : requestKey g = requestKey f) :
    (run next c₀ calls).apply g =
      if g.typ ≠ stopRequest then (.error .notAStopRequest, run next c₀ calls)
      else if g.body = f.body then
        (.ok { result := d.result, state := x.after.state, appliedNow := false }, run next c₀ calls)
      else (.ok { result := .idConflict, state := (run next c₀ calls).state, appliedNow := false },
        run next c₀ calls) := by
  obtain ⟨pre, post, hcalls, -, hbefore, hafter, rfl⟩ := trace_split hT
  obtain ⟨before, call, after⟩ := x
  obtain rfl : call = .apply f := hf
  obtain rfl : after = (before.apply f).2 := hafter
  obtain ⟨hnone, d', hd', hputs⟩ := puts_of_stores hstored
  obtain rfl : d' = d := by
    have heq := hd'.symm.trans hd
    injection heq
  have hrun : run next c₀ calls = run next (before.apply f).2 post := by
    rw [hcalls, run_append, show run next c₀ pre = before from hbefore.symm]
    rfl
  have hkept := recent_run post (hputs.recent hnone) (by rwa [Nat.zero_add])
  by_cases htype : g.typ = stopRequest
  · rw [hrun, apply_cached htype (hkey ▸ hkept.lookup), if_neg (not_not.mpr htype), hputs.state]
  · rw [if_pos htype, apply, if_pos htype]

/-- A STOP with the id `k` and the source age `age`. -/
def stopOf (k age : Int) : Frame :=
  { typ := 0x10, senderSession := 7, messageId := k, sourceAgeMs := age, body := [0, 0, 0, 99, 1, 0] }

/-- A STOP is applied, sent again, and sent once more after the mock state was set running and another one applied. -/
theorem stop_retry_twoStops :
    let c₀ : StopCache := { localSession := 99, ttlMs := 2000 }
    let calls : List Call := [.apply (stopOf 1 0), .apply (stopOf 1 0), .resetMockState, .apply (stopOf 2 0)]
    (run next c₀ calls).apply (stopOf 1 60000) =
      (.ok { result := .applied, state := .stopped, appliedNow := false }, run next c₀ calls) := by
  intro c₀ calls
  have hT : trace next c₀ calls =
      [] ++ ⟨c₀, .apply (stopOf 1 0), next (.apply (stopOf 1 0)) c₀⟩ :: (trace next c₀ calls).tail := rfl
  have hretry := stop_retry hT rfl (d := { result := .applied, state := .stopped, appliedNow := true })
    (by decide +kernel) (by decide +kernel) (by decide +kernel) (g := stopOf 1 60000) rfl
  exact hretry

/-! ## Old ids -/

/-- What is said to a request with an old id that is not in the cache. -/
theorem apply_old (htype : f.typ = stopRequest) (hnew : c.cache.lookup (requestKey f) = none)
    (hold : f.messageId ≤ c.highWaterOf f.senderSession) :
    c.apply f = (.ok { result := .staleId, state := c.state, appliedNow := false }, c) ↔ c.Legitimate f := by
  have happly : c.apply f = (.ok (c.applyNew f).1, (c.applyNew f).2) := by
    unfold apply
    rw [if_neg (not_not.mpr htype), show (f.senderSession, f.messageId) = requestKey f from rfl, hnew]
  have hother : ∀ result, result ≠ AckResult.staleId →
      (Except.ok (c.remember f result).1, (c.remember f result).2) ≠
        ((.ok { result := .staleId, state := c.state, appliedNow := false }, c) :
          Except ApplicationError StopDecision × StopCache) := by
    intro result hne heq
    have hdecision := congrArg Prod.fst heq
    injection hdecision with hdecision
    exact hne (congrArg StopDecision.result hdecision)
  rw [happly]
  unfold applyNew Legitimate
  rcases hdecode : decodeStop f.body with e | request <;> simp only
  · constructor
    · intro heq
      exact absurd heq (hother _ (by decide))
    · rintro ⟨⟨request, h, -⟩, -⟩
      cases h
  · constructor
    · intro heq
      split at heq
      · exact absurd heq (hother _ (by decide))
      · rename_i htarget
        split at heq
        · exact absurd heq (hother _ (by decide))
        · rename_i hcommand
          split at heq
          · exact absurd heq (hother _ (by decide))
          · rename_i hage
            exact ⟨⟨request, rfl, not_not.mp htarget, not_not.mp hcommand⟩, not_lt.mp hage⟩
    · rintro ⟨⟨request', h, htarget, hcommand⟩, hage⟩
      cases h
      rw [if_neg (not_not.mpr htarget), if_neg (not_not.mpr hcommand), if_neg (not_lt.mpr hage), if_pos hold]

/-- **Which old ids are told so.** After any calls, a STOP request that is not in the cache and has an id at or below
the mark of its sender is told that its id is stale, and leaves everything unchanged, exactly if it is well formed, for
this receiver, a STOP and current. The requests that were applied and have left the cache are among these. -/
theorem stale_id_iff {localSession ttlMs : Int} {c₀ : StopCache} (hnew : new localSession ttlMs = .ok c₀)
    (calls : List Call) {f : Frame} (htype : f.typ = stopRequest)
    (hout : (run next c₀ calls).cache.lookup (requestKey f) = none) :
    (f.messageId ≤ (run next c₀ calls).highWaterOf f.senderSession →
      ((run next c₀ calls).apply f =
          (.ok { result := .staleId, state := (run next c₀ calls).state, appliedNow := false }, run next c₀ calls) ↔
        (∃ request, decodeStop f.body = .ok request ∧ (request.targetSession : Int) = localSession ∧
          request.command = stopCommand) ∧ f.sourceAgeMs ≤ ttlMs)) ∧
      (requestKey f ∈ appliedIn (trace next c₀ calls) →
        f.messageId ≤ (run next c₀ calls).highWaterOf f.senderSession) := by
  have hrun := run_rel (P := Remembers localSession ttlMs) (G := fun _ => True) (f := applied) (remembers_new hnew)
    (fun H call c h _ => remembers_next h call) calls (fun _ _ => trivial)
  constructor
  · intro hold
    rw [apply_old htype hout hold, Legitimate, hrun.config.1, hrun.config.2]
  · intro happlied
    exact hrun.marks _ happlied

/-- Sixty-five STOPs of one sender, the first of which is applied and has left the cache at the end. -/
def manyStops : List Call := (List.range 65).map fun k => Call.apply (stopOf (k + 1) 0)

theorem stale_id_iff_manyStops :
    let c := run next { localSession := 99, ttlMs := 2000 } manyStops
    c.apply (stopOf 1 2000) = (.ok { result := .staleId, state := c.state, appliedNow := false }, c) :=
  ((stale_id_iff (show new 99 2000 = .ok { localSession := 99, ttlMs := 2000 } from rfl) manyStops
    (f := stopOf 1 2000) rfl (by decide +kernel)).1 (by decide +kernel)).mpr
    ⟨⟨{ targetSession := 99, command := 1, reason := 0 }, by decide +kernel, rfl, rfl⟩, by decide⟩

/-- The same request, one millisecond older, was applied, and is told that it has expired; the answer is stored. -/
theorem stale_id_expired :
    let c₀ : StopCache := { localSession := 99, ttlMs := 2000 }
    let c := run next c₀ manyStops
    let f := stopOf 1 2001
    new 99 2000 = .ok c₀ ∧ f.typ = stopRequest ∧ c.cache.lookup (requestKey f) = none ∧
      f.messageId ≤ c.highWaterOf f.senderSession ∧ requestKey f ∈ appliedIn (trace next c₀ manyStops) ∧
      (c.apply f).1 = .ok { result := .expired, state := .stopped, appliedNow := false } ∧
      (c.apply f).2.cache ≠ c.cache :=
  ⟨rfl, by decide +kernel⟩

end StopCache

end LoraLink.Application
