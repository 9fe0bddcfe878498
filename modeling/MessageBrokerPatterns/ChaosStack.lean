import MessageBrokerPatterns.ChaosAccounts

/-!
# The accounts of a stack of injectors

The counters of a stack whose outermost injector has been called any number of times, and what one
further call makes and brings back.
-/

namespace Chaos
open PyText
variable {A T H : Type*}

section Sums
variable {log : List (CallRecord A T)} {i : ℕ}

theorem invocationsAt_add_fires {fault : Fault}
    (h : ∀ r ∈ log, r.depth = i → fault.Comes r.fired r.inner r.outcome) :
    invocationsAt log i + (if fault = .brokerUnavailable then firesAt log i else 0) =
      callsAt log i + if fault = .duplicateDelivery then returnedFiresAt log i else 0 := by
  induction log with
  | nil => simp [invocationsAt, firesAt, callsAt, returnedFiresAt]
  | cons r log ih =>
    have hlog := ih fun r' hr' => h r' (List.mem_cons_of_mem _ hr')
    have hreturned : returnedFiresAt (r :: log) i = returnedFiresAt log i +
        if r.depth = i ∧ r.fired ∧ r.firstReturned then 1 else 0 := by
      simp [returnedFiresAt, List.countP_cons]
    rw [invocationsAt_cons, firesAt_cons, callsAt_cons, hreturned]
    by_cases hdepth : r.depth = i
    · have hr := (h r List.mem_cons_self hdepth).length_inner
      simp only [hdepth, if_true, true_and]
      split at hlog <;> split at hlog <;> simp_all <;> omega
    · simpa [hdepth] using hlog

theorem drawsAt_eq {count : ℕ} (h : ∀ r ∈ log, r.depth = i → r.draws.length = count) :
    drawsAt log i = callsAt log i * count := by
  induction log with
  | nil => simp [drawsAt, callsAt]
  | cons r log ih =>
    have hlog := ih fun r' hr' => h r' (List.mem_cons_of_mem _ hr')
    have hcons : drawsAt (r :: log) i =
        (if r.depth = i then r.draws.length else 0) + drawsAt log i := by simp [drawsAt]
    rw [hcons, hlog, callsAt_cons, Nat.add_mul, Nat.add_comm]
    congr 1
    by_cases hdepth : r.depth = i
    · simp [hdepth, h r List.mem_cons_self hdepth]
    · simp [hdepth]

end Sums

/-! ### The numbers that a stream has given -/

/-- The numbers that layers from depth `i` on draw from a stream, by the calls of each depth. -/
def drawnBy (rng : ℕ) : ℕ → List Injector → (ℕ → ℕ) → ℕ
  | _, [], _ => 0
  | i, l :: layers, calls =>
      (if l.rng = rng then l.policy.drawCount * calls i else 0) + drawnBy rng (i + 1) layers calls

theorem drawnBy_congr {rng i : ℕ} {layers : List Injector} {f g : ℕ → ℕ}
    (h : ∀ j, i ≤ j → j < i + layers.length → f j = g j) :
    drawnBy rng i layers f = drawnBy rng i layers g := by
  induction layers generalizing i with
  | nil => rfl
  | cons l layers ih =>
    rw [drawnBy, drawnBy, h i le_rfl (by simp), ih fun j hij hj => h j (by omega) (by
      rw [List.length_cons]
      omega)]

theorem drawnBy_add (rng i : ℕ) (layers : List Injector) (f g : ℕ → ℕ) :
    drawnBy rng i layers (fun j => f j + g j) =
      drawnBy rng i layers f + drawnBy rng i layers g := by
  induction layers generalizing i with
  | nil => rfl
  | cons l layers ih =>
    simp only [drawnBy, ih]
    split
    · rw [Nat.mul_add]
      omega
    · omega

theorem drawnBy_zero (rng i : ℕ) (layers : List Injector) :
    drawnBy rng i layers (fun _ => 0) = 0 := by
  induction layers generalizing i with
  | nil => rfl
  | cons l layers ih => simp [drawnBy, ih]

section
variable {streams : ℕ → ℕ → Draw} {handle : H → A → Except PyExc T × H} {i : ℕ}
variable {layers : List Injector} {args : List A} {w w' : World A T H}
variable {outcomes : List (Except PyExc T)} {new : List (CallRecord A T)}

/-- Over a row a stream gives one number for each call of a layer that draws from it. -/
theorem Calls.drawn_eq (h : Calls streams handle i layers args w outcomes new w') (rng : ℕ) :
    w'.drawn rng = w.drawn rng + drawnBy rng i layers (callsAt new) := by
  induction h with
  | done i layers w =>
    have hzero : callsAt ([] : List (CallRecord A T)) = fun _ => 0 := rfl
    rw [hzero, drawnBy_zero, Nat.add_zero]
  | handler hhandle hrest ih => simpa [drawnBy, World.record] using ih
  | @layer i l layers a args w w₁ w₂ w' fired draws inner outcome outcomes sub new henter hinner
      hcomes hrest ih₁ ih₂ =>
    have hself : callsAt (sub ++ ⟨i, a, draws, fired, inner, outcome⟩ :: new) i =
        1 + callsAt new i := by
      have hsub := callsAt_eq_zero fun r hr => (Nat.lt_of_succ_le (hinner.le_depth r hr)).ne
      simp [hsub, Nat.add_comm]
    have hdeep : drawnBy rng (i + 1) layers
        (callsAt (sub ++ ⟨i, a, draws, fired, inner, outcome⟩ :: new)) =
        drawnBy rng (i + 1) layers (callsAt sub) + drawnBy rng (i + 1) layers (callsAt new) := by
      rw [← drawnBy_add]
      refine drawnBy_congr fun j hij _ => ?_
      have hne : i ≠ j := by omega
      simp [hne]
    have hw₂ : w₂.drawn rng = _ := ih₁
    rw [ih₂, World.record, hw₂, (World.entered henter).drawn, drawnBy, drawnBy, hself, hdeep]
    split
    · rw [Nat.mul_add]
      omega
    · omega

end

/-! ### The accounts -/

/-- The calls that the layer outside depth `i`, or the caller, has made. -/
def World.invokedFromOutside (w : World A T H) (outer : ℕ) : ℕ → ℕ
  | 0 => outer
  | i + 1 => invocationsAt w.log i

/-- What holds of a stack whose outermost callable has been called `outer` times. -/
structure Accounts (layers : List Injector) (outer : ℕ) (drawn : ℕ → ℕ) (w : World A T H) :
    Prop where
  calls : ∀ i l, layers[i]? = some l → (w.attrs i).calls = w.invokedFromOutside outer i
  handlerCalls : callsAt w.log layers.length = w.invokedFromOutside outer layers.length
  fires : ∀ i l, layers[i]? = some l → (w.attrs i).fires = firesAt w.log i
  invocations : ∀ i l, layers[i]? = some l → (invocationsAt w.log i : ℤ) = (w.attrs i).calls -
    (if l.fault = .brokerUnavailable then (w.attrs i).fires else 0) +
      if l.fault = .duplicateDelivery then returnedFiresAt w.log i else 0
  onCall : ∀ i l (n : ℤ) pos, layers[i]? = some l → l.policy = .onCall n pos →
    (w.attrs i).fires = if n ≤ (w.attrs i).calls then 1 else 0
  probability : ∀ i l p range, layers[i]? = some l → l.policy = .probability p range →
    drawsAt w.log i = (w.attrs i).calls ∧ ∀ r ∈ w.log, r.depth = i → r.draws.length = 1
  streams : ∀ rng, w.drawn rng = drawn rng + drawnBy rng 0 layers fun i => (w.attrs i).calls

/-- What one call of the outermost callable makes and brings back, by the records `new` of the calls
that have ended meanwhile. -/
structure CallAccount (layers : List Injector) (args : A) (outcome : Except PyExc T)
    (new : List (CallRecord A T)) : Prop where
  quiet : (∀ r ∈ new, r.fired = false) →
    (new.filter fun r => r.depth = layers.length).map (fun r => (r.args, r.outcome)) =
      [(args, outcome)]
  error : ∀ exc, outcome = .error exc →
    (∃ r ∈ new, r.depth = layers.length ∧ r.outcome = .error exc) ∨
      ∃ r ∈ new, ∃ l, layers[r.depth]? = some l ∧ r.fired = true ∧ l.fault.chaosError = some exc

section
variable (streams : ℕ → ℕ → Draw) (handle : H → A → Except PyExc T × H)

theorem Calls.accounts {layers : List Injector} {args : List A} {drawn : ℕ → ℕ} {handler : H}
    {outcomes : List (Except PyExc T)} {new : List (CallRecord A T)} {w : World A T H}
    (h : Calls streams handle 0 layers args { drawn, handler } outcomes new w) :
    Accounts layers args.length drawn w := by
  have hlog : w.log = new := by simpa using h.log_eq
  have hlt : ∀ i l, layers[i]? = some l → i < 0 + layers.length := by
    intro i l hl
    obtain ⟨hi, -⟩ := List.getElem?_eq_some_iff.mp hl
    omega
  have hattrs : ∀ i l, layers[i]? = some l →
      (w.attrs i).calls = callsAt w.log i ∧ (w.attrs i).fires = firesAt w.log i := by
    intro i l hl
    simpa [hlog] using h.attrs_eq (hlt i l hl)
  have hcalls : ∀ i, i ≤ layers.length → callsAt w.log i = w.invokedFromOutside args.length i := by
    intro i hi
    cases i with
    | zero => rw [hlog, h.callsAt_self, World.invokedFromOutside]
    | succ i => rw [World.invokedFromOutside, hlog, h.callsAt_succ (Nat.zero_le i) (by omega)]
  have hcomes : ∀ i l, layers[i]? = some l → ∀ r ∈ w.log, r.depth = i →
      l.fault.Comes r.fired r.inner r.outcome ∧ r.draws.length = l.policy.drawCount := by
    intro i l hl r hr hdepth
    rw [hlog] at hr
    exact h.comes r hr l (by rw [hdepth]; exact hl)
  refine ⟨?_, ?_, ?_, ?_, ?_, ?_, ?_⟩
  · intro i l hl
    have hi := hlt i l hl
    rw [(hattrs i l hl).1, hcalls i (by omega)]
  · exact hcalls _ le_rfl
  · exact fun i l hl => (hattrs i l hl).2
  · intro i l hl
    have hsum := invocationsAt_add_fires fun r hr hdepth => (hcomes i l hl r hr hdepth).1
    rw [(hattrs i l hl).1, (hattrs i l hl).2]
    split_ifs at hsum ⊢ <;> omega
  · intro i l n pos hl hpolicy
    refine h.fires_eq (Nat.zero_le i) hl hpolicy ?_
    simp
    omega
  · intro i l p range hl hpolicy
    have hdraws : ∀ r ∈ w.log, r.depth = i → r.draws.length = 1 := by
      intro r hr hdepth
      rw [(hcomes i l hl r hr hdepth).2, hpolicy, FirePolicy.drawCount]
    exact ⟨by rw [drawsAt_eq hdraws, (hattrs i l hl).1, Nat.mul_one], hdraws⟩
  · intro rng
    rw [h.drawn_eq rng]
    congr 1
    refine drawnBy_congr fun i _ hi => ?_
    simpa [hlog] using (h.attrs_eq hi).1.symm

/-- The world after calls of the outermost injector of a new stack. -/
def after (layers : List Injector) (calls : List A) (drawn : ℕ → ℕ) (handler : H) : World A T H :=
  (run streams handle layers calls { drawn, handler }).2

/-- The accounts of a stack after any calls of its outermost injector, and of the call after them. -/
theorem run_accounts (layers : List Injector) (calls : List A) (drawn : ℕ → ℕ) (handler : H) :
    Accounts layers calls.length drawn (after streams handle layers calls drawn handler) ∧
      ∀ args, ∃ new,
        (call streams handle 0 layers args (after streams handle layers calls drawn handler)).2.log =
          (after streams handle layers calls drawn handler).log ++ new ∧
        CallAccount layers args
          (call streams handle 0 layers args
            (after streams handle layers calls drawn handler)).1 new := by
  obtain ⟨past, hpast⟩ := exists_calls_run  layers calls
    ({ drawn, handler } : World A T H)
  refine ⟨hpast.accounts, fun args => ?_⟩
  obtain ⟨new, hnew⟩ := exists_calls_call  0 layers args
    (after streams handle layers calls drawn handler)
  refine ⟨new, hnew.log_eq, fun hquiet => ?_, fun exc hexc => ?_⟩
  · simpa using hnew.handler_of_quiet hquiet
  · simpa using hnew.error_origin (by simpa using hexc.symm)

end

/-- A duplicate delivery on the second call, around a crash on the first. -/
def crashInDuplicate : List Injector :=
  [⟨.duplicateDelivery, .onCall 2 (by decide), 0⟩, ⟨.crashBeforeAck, .onCall 1 (by decide), 1⟩]

/-- The inner counters run on their own: a call of the outer one may count twice within. -/
example :
    let out := run (fun _ _ => ⟨0, by norm_num⟩) (fun seen (payment : ℕ) => (.ok payment, seen + 1))
      crashInDuplicate [1, 2] { drawn := fun _ => 0, handler := 0 }
    (out.1, (out.2.attrs 0).calls, (out.2.attrs 1).calls, out.2.handler) =
      ([.error consumerCrashError, .ok 2], 2, 3, 3) := rfl

end Chaos
