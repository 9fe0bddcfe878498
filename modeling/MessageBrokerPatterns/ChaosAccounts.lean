import MessageBrokerPatterns.Chaos
import Mathlib.Algebra.BigOperators.Group.List.Basic

/-!
# What the counters of stacked injectors account for

`Calls i layers args w outcomes new w'` is a row of calls of the injector at depth `i`, one for each
of `args`: between `w` and `w'` they have come to `outcomes`, and `new` are the records of all calls
that have ended in between, on this depth and further in. Every account is an induction on such a
row, with one case for a call of the handler and one for a call of an injector.
-/

namespace Chaos
open PyText
variable {A T H : Type*}

/-! ### Counting in a log -/

section Counting
variable (log : List (CallRecord A T)) (i : ℕ)

/-- The invocation of the wrapped callable that came first has returned. -/
def CallRecord.firstReturned (r : CallRecord A T) : Bool :=
  match r.inner with
  | .ok _ :: _ => true
  | _ => false

def callsAt : ℕ := log.countP fun r => r.depth = i

def firesAt : ℕ := log.countP fun r => r.depth = i ∧ r.fired

def returnedFiresAt : ℕ := log.countP fun r => r.depth = i ∧ r.fired ∧ r.firstReturned

def invocationsAt : ℕ := (log.map fun r => if r.depth = i then r.inner.length else 0).sum

def drawsAt : ℕ := (log.map fun r => if r.depth = i then r.draws.length else 0).sum

variable {log i}

@[simp] theorem callsAt_nil : callsAt ([] : List (CallRecord A T)) i = 0 := rfl

@[simp] theorem callsAt_append (log' : List (CallRecord A T)) :
    callsAt (log ++ log') i = callsAt log i + callsAt log' i := List.countP_append

@[simp] theorem callsAt_cons (r : CallRecord A T) :
    callsAt (r :: log) i = callsAt log i + if r.depth = i then 1 else 0 := by
  simp [callsAt, List.countP_cons]

@[simp] theorem firesAt_nil : firesAt ([] : List (CallRecord A T)) i = 0 := rfl

@[simp] theorem firesAt_append (log' : List (CallRecord A T)) :
    firesAt (log ++ log') i = firesAt log i + firesAt log' i := List.countP_append

@[simp] theorem firesAt_cons (r : CallRecord A T) :
    firesAt (r :: log) i = firesAt log i + if r.depth = i ∧ r.fired then 1 else 0 := by
  simp [firesAt, List.countP_cons]

@[simp] theorem invocationsAt_nil : invocationsAt ([] : List (CallRecord A T)) i = 0 := rfl

@[simp] theorem invocationsAt_append (log' : List (CallRecord A T)) :
    invocationsAt (log ++ log') i = invocationsAt log i + invocationsAt log' i := by
  simp [invocationsAt]

@[simp] theorem invocationsAt_cons (r : CallRecord A T) :
    invocationsAt (r :: log) i =
      (if r.depth = i then r.inner.length else 0) + invocationsAt log i := by
  simp [invocationsAt]

theorem callsAt_eq_zero (h : ∀ r ∈ log, i ≠ r.depth) : callsAt log i = 0 := by
  rw [callsAt, List.countP_eq_zero]
  intro r hr
  simpa using (h r hr).symm

theorem firesAt_eq_zero (h : ∀ r ∈ log, i ≠ r.depth) : firesAt log i = 0 := by
  rw [firesAt, List.countP_eq_zero]
  intro r hr hfired
  simp only [decide_eq_true_eq] at hfired
  exact h r hr hfired.1.symm

theorem invocationsAt_eq_zero (h : ∀ r ∈ log, i ≠ r.depth) : invocationsAt log i = 0 := by
  induction log with
  | nil => rfl
  | cons r log ih =>
    rw [invocationsAt_cons, if_neg (h r List.mem_cons_self).symm,
      ih fun r' hr' => h r' (List.mem_cons_of_mem _ hr')]

end Counting

/-! ### What one call comes to -/

/-- What a call of a faulty wrapper comes to, by what its inner invocations have come to. -/
inductive Fault.Comes : Fault → Bool → List (Except PyExc T) → Except PyExc T → Prop
  | passed (fault : Fault) (outcome : Except PyExc T) : Comes fault false [outcome] outcome
  | refused : Comes .brokerUnavailable true [] (.error brokerUnavailableError)
  | cutShort (exc : PyExc) : Comes .duplicateDelivery true [.error exc] (.error exc)
  | redelivered (value : T) (outcome : Except PyExc T) :
      Comes .duplicateDelivery true [.ok value, outcome] outcome
  | failed (exc : PyExc) : Comes .crashBeforeAck true [.error exc] (.error exc)
  | crashed (value : T) : Comes .crashBeforeAck true [.ok value] (.error consumerCrashError)
  | delayed (latency : ℚ) (pos : 0 < latency) (outcome : Except PyExc T) :
      Comes (.slowConsumer latency pos) true [outcome] outcome

theorem Fault.Comes.eq_of_not_fired {fault : Fault} {inner : List (Except PyExc T)}
    {outcome : Except PyExc T} (h : fault.Comes false inner outcome) : inner = [outcome] := by
  cases h
  rfl

theorem Fault.Comes.error {fault : Fault} {fired : Bool} {inner : List (Except PyExc T)}
    {exc : PyExc} (h : fault.Comes fired inner (.error exc)) :
    .error exc ∈ inner ∨ fired = true ∧ fault.chaosError = some exc := by
  cases h with
  | refused => exact .inr ⟨rfl, rfl⟩
  | crashed value => exact .inr ⟨rfl, rfl⟩
  | passed | cutShort | redelivered | failed | delayed => exact .inl (by simp)

/-- The invocations of one call: one, or none when a broker is unavailable, or one more when the
first of a duplicate delivery has returned. -/
theorem Fault.Comes.length_inner {fault : Fault} {r : CallRecord A T}
    (h : fault.Comes r.fired r.inner r.outcome) :
    r.inner.length + (if fault = .brokerUnavailable ∧ r.fired then 1 else 0) =
      1 + if fault = .duplicateDelivery ∧ r.fired ∧ r.firstReturned then 1 else 0 := by
  obtain ⟨depth, args, draws, fired, inner, outcome⟩ := r
  change fault.Comes fired inner outcome at h
  cases h <;> simp [CallRecord.firstReturned]

def FirePolicy.drawCount : FirePolicy → ℕ
  | .probability _ _ => 1
  | .onCall _ _ => 0

/-- What a fault does before it invokes what it wraps. -/
def Fault.delay (w : World A T H) : Fault → World A T H
  | .slowConsumer latency _ => w.sleep latency
  | .brokerUnavailable | .duplicateDelivery | .crashBeforeAck => w

/-- A call up to its first inner invocation: whether it fires, with the numbers it draws. -/
def World.enter (w : World A T H) (streams : ℕ → ℕ → Draw) (i : ℕ) (l : Injector) :
    Bool × List Draw × World A T H :=
  let (fired, draws, w) := (w.countCall i).shouldFire streams i l
  if fired then (true, draws, l.fault.delay (w.countFire i)) else (false, draws, w)

/-- All that a call does to the world before its first inner invocation. -/
structure Entered (i : ℕ) (l : Injector) (w : World A T H) (fired : Bool) (draws : List Draw)
    (w₁ : World A T H) : Prop where
  log : w₁.log = w.log
  attrs : w₁.attrs = Function.update w.attrs i
    ⟨(w.attrs i).calls + 1, (w.attrs i).fires + if fired then 1 else 0⟩
  drawn : ∀ r, w₁.drawn r = w.drawn r + if l.rng = r then l.policy.drawCount else 0
  draws : draws.length = l.policy.drawCount
  ordinal : ∀ n pos, l.policy = .onCall n pos → (fired = true ↔ (w.attrs i).calls + 1 = n)

theorem Fault.delay_fields (fault : Fault) (w : World A T H) :
    (fault.delay w).log = w.log ∧ (fault.delay w).attrs = w.attrs ∧
      (fault.delay w).drawn = w.drawn := by
  cases fault <;> exact ⟨rfl, rfl, rfl⟩

theorem World.shouldFire_spec (w : World A T H) (streams : ℕ → ℕ → Draw) (i : ℕ) (l : Injector) :
    (w.shouldFire streams i l).2.1.length = l.policy.drawCount ∧
      (w.shouldFire streams i l).2.2 = { w with
        drawn := fun r => w.drawn r + if l.rng = r then l.policy.drawCount else 0 } ∧
      ∀ n pos, l.policy = .onCall n pos →
        ((w.shouldFire streams i l).1 = true ↔ (w.attrs i).calls = n) := by
  obtain ⟨fault, policy, rng⟩ := l
  cases policy with
  | probability p range =>
    have hdrawn : Function.update w.drawn rng (w.drawn rng + 1) =
        fun r => w.drawn r + if rng = r then 1 else 0 := by
      funext r
      by_cases hr : rng = r
      · subst hr
        simp
      · simp [hr, Ne.symm hr]
    refine ⟨rfl, ?_, nofun⟩
    simp only [shouldFire, FirePolicy.drawCount, hdrawn]
  | onCall n pos =>
    refine ⟨rfl, ?_, ?_⟩
    · simp [shouldFire, FirePolicy.drawCount]
    · rintro m _ ⟨⟩
      simp [shouldFire]

theorem World.entered {w w₁ : World A T H} {streams : ℕ → ℕ → Draw} {i : ℕ} {l : Injector}
    {fired : Bool} {draws : List Draw} (h : w.enter streams i l = (fired, draws, w₁)) :
    Entered i l w fired draws w₁ := by
  obtain ⟨hdraws, hworld, hordinal⟩ := (w.countCall i).shouldFire_spec streams i l
  have hcalls : ((w.countCall i).attrs i).calls = (w.attrs i).calls + 1 := by simp [countCall]
  rw [enter] at h
  generalize (w.countCall i).shouldFire streams i l = decision at h hdraws hworld hordinal
  obtain ⟨fired', draws', w'⟩ := decision
  dsimp only at hdraws hworld hordinal
  subst hworld
  simp only [hcalls, Nat.cast_add, Nat.cast_one] at hordinal
  cases fired' with
  | true =>
    obtain ⟨rfl, rfl, rfl⟩ := by simpa using h
    obtain ⟨hlog, hattrs, hdrawn⟩ := l.fault.delay_fields (countFire { w.countCall i with
      drawn := fun r => (w.countCall i).drawn r + if l.rng = r then l.policy.drawCount else 0 } i)
    refine ⟨hlog, hattrs.trans ?_, fun r => congrFun hdrawn r, hdraws, hordinal⟩
    simp [countFire, countCall]
  | false =>
    obtain ⟨rfl, rfl, rfl⟩ := by simpa using h
    exact ⟨rfl, rfl, fun r => rfl, hdraws, hordinal⟩

/-- Invocations of `wrapped`, one after the other, and what they come to. -/
def Successive (wrapped : World A T H → Except PyExc T × World A T H) :
    World A T H → List (Except PyExc T) → World A T H → Prop
  | w, [], w' => w' = w
  | w, outcome :: outcomes, w' =>
      (wrapped w).1 = outcome ∧ Successive wrapped (wrapped w).2 outcomes w'

theorem Fault.fire_successive (fault : Fault)
    (wrapped : World A T H → Except PyExc T × World A T H) (w : World A T H) :
    Successive wrapped (fault.delay w) (fault.fire wrapped w).1 (fault.fire wrapped w).2.2 ∧
      fault.Comes true (fault.fire wrapped w).1 (fault.fire wrapped w).2.1 := by
  cases fault with
  | brokerUnavailable => exact ⟨rfl, .refused⟩
  | duplicateDelivery =>
    simp only [Fault.fire, Fault.delay]
    split
    · rename_i exc w₁ hw
      exact ⟨by simp [Successive, hw], .cutShort exc⟩
    · rename_i value w₁ hw
      exact ⟨by simp [Successive, hw], .redelivered value _⟩
  | crashBeforeAck =>
    simp only [Fault.fire, Fault.delay]
    split
    · rename_i exc w₁ hw
      exact ⟨by simp [Successive, hw], .failed exc⟩
    · rename_i value w₁ hw
      exact ⟨by simp [Successive, hw], .crashed value⟩
  | slowConsumer latency pos =>
    exact ⟨by simp [Successive, Fault.fire, Fault.delay], .delayed latency pos _⟩

section
variable (streams : ℕ → ℕ → Draw) (handle : H → A → Except PyExc T × H)

/-- A row of calls at a depth, with the records of all calls that have ended on the way. -/
inductive Calls : ℕ → List Injector → List A → World A T H → List (Except PyExc T) →
    List (CallRecord A T) → World A T H → Prop
  | done (i : ℕ) (layers : List Injector) (w : World A T H) : Calls i layers [] w [] [] w
  | handler {i : ℕ} {a : A} {args : List A} {w w' : World A T H} {outcome : Except PyExc T}
      {handler : H} {outcomes : List (Except PyExc T)} {new : List (CallRecord A T)}
      (hhandle : handle w.handler a = (outcome, handler))
      (hrest : Calls i [] args ({ w with handler }.record ⟨i, a, [], false, [], outcome⟩)
        outcomes new w') :
      Calls i [] (a :: args) w (outcome :: outcomes) (⟨i, a, [], false, [], outcome⟩ :: new) w'
  | layer {i : ℕ} {l : Injector} {layers : List Injector} {a : A} {args : List A}
      {w w₁ w₂ w' : World A T H} {fired : Bool} {draws : List Draw}
      {inner : List (Except PyExc T)} {outcome : Except PyExc T}
      {outcomes : List (Except PyExc T)} {sub new : List (CallRecord A T)}
      (henter : w.enter streams i l = (fired, draws, w₁))
      (hinner : Calls (i + 1) layers (List.replicate inner.length a) w₁ inner sub w₂)
      (hcomes : l.fault.Comes fired inner outcome)
      (hrest : Calls i (l :: layers) args (w₂.record ⟨i, a, draws, fired, inner, outcome⟩)
        outcomes new w') :
      Calls i (l :: layers) (a :: args) w (outcome :: outcomes)
        (sub ++ ⟨i, a, draws, fired, inner, outcome⟩ :: new) w'

variable {streams handle} {i : ℕ} {l : Injector} {layers : List Injector} {a : A} {args : List A}
variable {w w' : World A T H} {outcomes : List (Except PyExc T)} {new : List (CallRecord A T)}

theorem Calls.append {args' : List A} {w'' : World A T H} {outcomes' : List (Except PyExc T)}
    {new' : List (CallRecord A T)} (h : Calls streams handle i layers args w outcomes new w')
    (h' : Calls streams handle i layers args' w' outcomes' new' w'') :
    Calls streams handle i layers (args ++ args') w (outcomes ++ outcomes') (new ++ new') w'' := by
  induction h with
  | done i layers w => exact h'
  | handler hhandle hrest ih => exact .handler hhandle (ih h')
  | layer henter hinner hcomes hrest ih₁ ih₂ =>
    rw [List.append_assoc, List.cons_append]
    exact .layer henter hinner hcomes (ih₂ h')

theorem exists_calls_of_successive {outcomes : List (Except PyExc T)}
    (hone : ∀ w, ∃ new, Calls streams handle i layers [a] w
      [(call streams handle i layers a w).1] new (call streams handle i layers a w).2)
    (h : Successive (call streams handle i layers a) w outcomes w') :
    ∃ new, Calls streams handle i layers (List.replicate outcomes.length a) w outcomes new w' := by
  induction outcomes generalizing w with
  | nil =>
    obtain rfl : w' = w := h
    exact ⟨[], .done _ _ _⟩
  | cons outcome outcomes ih =>
    obtain ⟨rfl, h⟩ := h
    obtain ⟨first, hfirst⟩ := hone w
    obtain ⟨rest, hrest⟩ := ih h
    exact ⟨first ++ rest, hfirst.append hrest⟩

theorem exists_calls_call (i : ℕ) (layers : List Injector) (a : A) (w : World A T H) :
    ∃ new, Calls streams handle i layers [a] w [(call streams handle i layers a w).1] new
      (call streams handle i layers a w).2 := by
  induction layers generalizing i w with
  | nil => exact ⟨_, .handler rfl (.done _ _ _)⟩
  | cons l layers ih =>
    simp only [call]
    generalize hfire : (w.countCall i).shouldFire streams i l = decision
    obtain ⟨fired, draws, w₁⟩ := decision
    cases fired with
    | false =>
      obtain ⟨sub, hinner⟩ := ih (i + 1) w₁
      have henter : w.enter streams i l = (false, draws, w₁) := by
        simp only [World.enter, hfire, Bool.false_eq_true, if_false]
      have hrow : Calls streams handle (i + 1) layers
          (List.replicate [(call streams handle (i + 1) layers a w₁).1].length a) w₁
          [(call streams handle (i + 1) layers a w₁).1] sub
          (call streams handle (i + 1) layers a w₁).2 := hinner
      exact ⟨_, Calls.layer henter hrow (.passed _ _) (.done _ _ _)⟩
    | true =>
      have henter : w.enter streams i l = (true, draws, l.fault.delay (w₁.countFire i)) := by
        simp only [World.enter, hfire, if_true]
      obtain ⟨hsucc, hcomes⟩ := l.fault.fire_successive (call streams handle (i + 1) layers a)
        (w₁.countFire i)
      obtain ⟨sub, hinner⟩ := exists_calls_of_successive (ih (i + 1)) hsucc
      exact ⟨_, .layer henter hinner hcomes (.done _ _ _)⟩

theorem exists_calls_run (layers : List Injector) (args : List A) (w : World A T H) :
    ∃ new, Calls streams handle 0 layers args w (run streams handle layers args w).1 new
      (run streams handle layers args w).2 := by
  induction args generalizing w with
  | nil => exact ⟨[], .done _ _ _⟩
  | cons a args ih =>
    obtain ⟨first, hfirst⟩ := exists_calls_call 0 layers a w
    obtain ⟨rest, hrest⟩ := ih (call streams handle 0 layers a w).2
    exact ⟨first ++ rest, hfirst.append hrest⟩

/-! ### The accounts of a row -/

namespace Calls
variable (h : Calls streams handle i layers args w outcomes new w')
include h

theorem log_eq : w'.log = w.log ++ new := by
  induction h with
  | done i layers w => simp
  | handler hhandle hrest ih => simp [ih, World.record]
  | layer henter hinner hcomes hrest ih₁ ih₂ =>
    rw [ih₂, World.record, ih₁, (World.entered henter).log]
    simp

theorem le_depth : ∀ r ∈ new, i ≤ r.depth := by
  induction h with
  | done i layers w => simp
  | handler hhandle hrest ih => simpa using ih
  | layer henter hinner hcomes hrest ih₁ ih₂ =>
    intro r hr
    rcases List.mem_append.mp hr with hr | hr
    · have := ih₁ r hr
      omega
    · rcases List.mem_cons.mp hr with rfl | hr
      · exact le_rfl
      · exact ih₂ r hr

theorem callsAt_self : callsAt new i = args.length := by
  induction h with
  | done i layers w => rfl
  | handler hhandle hrest ih => simp [ih]
  | layer henter hinner hcomes hrest ih₁ ih₂ =>
    have hsub := callsAt_eq_zero fun r hr => (Nat.lt_of_succ_le (hinner.le_depth r hr)).ne
    simp [ih₂, hsub]

/-- Further in, the calls at a depth are the invocations of the layer around it. -/
theorem callsAt_succ {j : ℕ} (hij : i ≤ j) (hj : j < i + layers.length) :
    callsAt new (j + 1) = invocationsAt new j := by
  induction h with
  | done i layers w => rfl
  | handler hhandle hrest ih =>
    simp at hj
    omega
  | @layer i l layers a args w w₁ w₂ w' fired draws inner outcome outcomes sub new henter hinner
      hcomes hrest ih₁ ih₂ =>
    have hne : i ≠ j + 1 := by omega
    simp only [callsAt_append, callsAt_cons, invocationsAt_append, invocationsAt_cons, if_neg hne,
      add_zero, ih₂ hij hj]
    rcases hij.eq_or_lt with rfl | hlt
    · have hsub := invocationsAt_eq_zero fun r hr => (Nat.lt_of_succ_le (hinner.le_depth r hr)).ne
      rw [hinner.callsAt_self, hsub, List.length_replicate, if_pos rfl, Nat.zero_add]
    · have hj' : j < i + 1 + layers.length := by
        simp only [List.length_cons] at hj
        omega
      rw [ih₁ hlt hj', if_neg hlt.ne, Nat.zero_add]

theorem attrs_eq {j : ℕ} (hj : j < i + layers.length) :
    (w'.attrs j).calls = (w.attrs j).calls + callsAt new j ∧
      (w'.attrs j).fires = (w.attrs j).fires + firesAt new j := by
  induction h with
  | done i layers w => simp
  | @handler i a args w w' outcome handler outcomes new hhandle hrest ih =>
    obtain ⟨hcalls, hfires⟩ := ih hj
    have hne : i ≠ j := by
      simp at hj
      omega
    simpa [hne, World.record] using ih hj
  | @layer i l layers a args w w₁ w₂ w' fired draws inner outcome outcomes sub new henter hinner
      hcomes hrest ih₁ ih₂ =>
    have hj' : j < i + 1 + layers.length := by
      simp only [List.length_cons] at hj
      omega
    obtain ⟨hcalls₁, hfires₁⟩ := ih₁ hj'
    obtain ⟨hcalls₂, hfires₂⟩ := ih₂ hj
    simp only [World.record] at hcalls₂ hfires₂
    rw [hcalls₂, hfires₂, hcalls₁, hfires₁, (World.entered henter).attrs]
    by_cases hij : i = j
    · subst hij
      simp [Function.update_self]
      omega
    · rw [Function.update_of_ne (Ne.symm hij)]
      simp [hij]
      omega

theorem attrs_of_lt {j : ℕ} (hj : j < i) : w'.attrs j = w.attrs j := by
  have hne : ∀ r ∈ new, j ≠ r.depth := fun r hr => (hj.trans_le (h.le_depth r hr)).ne
  obtain ⟨hcalls, hfires⟩ := h.attrs_eq (j := j) (by omega)
  rw [callsAt_eq_zero hne] at hcalls
  rw [firesAt_eq_zero hne] at hfires
  cases hw : w'.attrs j
  simp_all

omit h in
theorem getElem?_cons_sub {d : ℕ} (hd : i + 1 ≤ d) :
    (l :: layers)[d - i]? = layers[d - (i + 1)]? := by
  obtain ⟨k, rfl⟩ := Nat.exists_eq_add_of_le hd
  rw [show i + 1 + k - i = k + 1 by omega, show i + 1 + k - (i + 1) = k by omega,
    List.getElem?_cons_succ]

theorem comes : ∀ r ∈ new, ∀ l, layers[r.depth - i]? = some l →
    l.fault.Comes r.fired r.inner r.outcome ∧ r.draws.length = l.policy.drawCount := by
  induction h with
  | done i layers w => simp
  | handler hhandle hrest ih => simp
  | layer henter hinner hcomes hrest ih₁ ih₂ =>
    intro r hr l' hl'
    rcases List.mem_append.mp hr with hr | hr
    · rw [getElem?_cons_sub (hinner.le_depth r hr)] at hl'
      exact ih₁ r hr l' hl'
    · rcases List.mem_cons.mp hr with rfl | hr
      · obtain rfl : _ = l' := by simpa using hl'
        exact ⟨hcomes, (World.entered henter).draws⟩
      · exact ih₂ r hr l' hl'

theorem fires_eq {j : ℕ} (hij : i ≤ j) {l' : Injector} (hl' : layers[j - i]? = some l') {n : ℤ}
    {pos : 1 ≤ n} (hpolicy : l'.policy = .onCall n pos)
    (hw : (w.attrs j).fires = if n ≤ (w.attrs j).calls then 1 else 0) :
    (w'.attrs j).fires = if n ≤ (w'.attrs j).calls then 1 else 0 := by
  induction h with
  | done i layers w => exact hw
  | handler hhandle hrest ih => simp at hl'
  | @layer i l layers a args w w₁ w₂ w' fired draws inner outcome outcomes sub new henter hinner
      hcomes hrest ih₁ ih₂ =>
    have hattrs := (World.entered henter).attrs
    refine ih₂ hij hl' ?_
    rw [World.record]
    rcases hij.eq_or_lt with rfl | hlt
    · obtain rfl : l = l' := by simpa using hl'
      have hordinal := (World.entered henter).ordinal n pos hpolicy
      rw [hinner.attrs_of_lt (Nat.lt_succ_self _), hattrs, Function.update_self]
      cases fired with
      | true =>
        have heq := hordinal.mp rfl
        rw [hw]
        simp only [if_true]
        split <;> split <;> omega
      | false =>
        have hne : ((w.attrs i).calls : ℤ) + 1 ≠ n := fun heq => by simpa using hordinal.mpr heq
        simp only [Bool.false_eq_true, if_false, hw]
        split <;> split <;> omega
    · rw [getElem?_cons_sub hlt] at hl'
      refine ih₁ hlt hl' ?_
      rw [hattrs, Function.update_of_ne hlt.ne']
      exact hw

theorem handler_of_quiet (hquiet : ∀ r ∈ new, r.fired = false) :
    (new.filter fun r => r.depth = i + layers.length).map (fun r => (r.args, r.outcome)) =
      args.zip outcomes := by
  induction h with
  | done i layers w => rfl
  | handler hhandle hrest ih =>
    have hnew := ih fun r hr => hquiet r (List.mem_cons_of_mem _ hr)
    simp only [List.length_nil, Nat.add_zero] at hnew
    simp [hnew]
  | @layer i l layers a args w w₁ w₂ w' fired draws inner outcome outcomes sub new henter hinner
      hcomes hrest ih₁ ih₂ =>
    obtain rfl : fired = false := hquiet _ (List.mem_append_right _ List.mem_cons_self)
    have hsub := ih₁ fun r hr => hquiet r (List.mem_append_left _ hr)
    have hnew := ih₂ fun r hr =>
      hquiet r (List.mem_append_right _ (List.mem_cons_of_mem _ hr))
    have hlen : i + (l :: layers).length = i + 1 + layers.length := by
      rw [List.length_cons]
      omega
    have hne : i ≠ i + 1 + layers.length := by omega
    rw [hlen] at hnew ⊢
    obtain rfl := hcomes.eq_of_not_fired
    simp [hsub, hnew, hne]

/-- An error that comes out of a row was raised by the handler or by a layer that fired. -/
theorem error_origin {exc : PyExc} (hexc : .error exc ∈ outcomes) :
    (∃ r ∈ new, r.depth = i + layers.length ∧ r.outcome = .error exc) ∨
      ∃ r ∈ new, ∃ l, layers[r.depth - i]? = some l ∧ r.fired = true ∧
        l.fault.chaosError = some exc := by
  induction h with
  | done i layers w => simp at hexc
  | @handler i a args w w' outcome handler outcomes new hhandle hrest ih =>
    rcases List.mem_cons.mp hexc with rfl | hexc
    · exact .inl ⟨_, List.mem_cons_self, rfl, rfl⟩
    · rcases ih hexc with ⟨r, hr, h⟩ | ⟨r, hr, l, hl, h⟩
      · exact .inl ⟨r, List.mem_cons_of_mem _ hr, h⟩
      · simp at hl
  | @layer i l layers a args w w₁ w₂ w' fired draws inner outcome outcomes sub new henter hinner
      hcomes hrest ih₁ ih₂ =>
    have hlen : i + (l :: layers).length = i + 1 + layers.length := by
      rw [List.length_cons]
      omega
    rcases List.mem_cons.mp hexc with rfl | hexc
    · rcases hcomes.error with hin | ⟨rfl, hfault⟩
      · rcases ih₁ hin with ⟨r, hr, hdepth, h⟩ | ⟨r, hr, l', hl', h⟩
        · exact .inl ⟨r, List.mem_append_left _ hr, hdepth.trans hlen.symm, h⟩
        · rw [← getElem?_cons_sub (l := l) (hinner.le_depth r hr)] at hl'
          exact .inr ⟨r, List.mem_append_left _ hr, l', hl', h⟩
      · exact .inr ⟨_, List.mem_append_right _ List.mem_cons_self, l, by simp, rfl, hfault⟩
    · rcases ih₂ hexc with ⟨r, hr, h⟩ | ⟨r, hr, h⟩
      · exact .inl ⟨r, List.mem_append_right _ (List.mem_cons_of_mem _ hr), h⟩
      · exact .inr ⟨r, List.mem_append_right _ (List.mem_cons_of_mem _ hr), h⟩

end Calls

end

end Chaos
