import MessageBrokerPatterns.PyText
import Mathlib.Logic.Function.Basic

/-!
# Fault injectors around a handler

A stack of injectors is a list, the outermost first, and the injector at depth `i` wraps the rest of
the list. `World.attrs i` holds the counters of the injector at depth `i`, `World.drawn` how many
numbers each random stream has given: injectors that share an `rng` draw from one stream. The
handler is any function of its own state and its arguments.

`World.log` is a record of every call that has come to its end, of an injector or of the handler. No
function reads it.
-/

namespace Chaos
open PyText

/-- A number that `rng.random()` may give. -/
abbrev Draw := {x : ℚ // 0 ≤ x ∧ x < 1}

/-- A trigger that the constructor accepts. -/
inductive FirePolicy where
  | probability (p : ℚ) (range : 0 ≤ p ∧ p ≤ 1)
  | onCall (n : ℤ) (pos : 1 ≤ n)

/-- `FirePolicy(probability, on_call)` with its checks. -/
def FirePolicy.new (floatRepr : ℚ → String) : Option Float64 → Option ℤ → Except PyExc FirePolicy
  | some _, some _ => .error (valueError "configure probability or on_call, not both")
  | none, none =>
      .error (valueError "configure a trigger: probability=<0.0-1.0> or on_call=<n>")
  | some p, none =>
      match p with
      | .finite x =>
          if h : 0 ≤ x ∧ x ≤ 1 then .ok (.probability x h)
          else .error (valueError ("probability must be between 0.0 and 1.0, got " ++ floatRepr x))
      | p =>
          .error (valueError ("probability must be between 0.0 and 1.0, got " ++ p.repr floatRepr))
  | none, some n =>
      if h : 1 ≤ n then .ok (.onCall n h)
      else .error (valueError ("on_call must be a call ordinal >= 1, got " ++ pyStr n))

theorem FirePolicy.exists_new (floatRepr : ℚ → String) (policy : FirePolicy) :
    ∃ p n, new floatRepr p n = .ok policy := by
  cases policy with
  | probability p h => exact ⟨some (.finite p), none, by simp only [new, dif_pos h]⟩
  | onCall n h => exact ⟨none, some n, by simp only [new, dif_pos h]⟩

inductive Fault where
  | brokerUnavailable
  | duplicateDelivery
  | crashBeforeAck
  | slowConsumer (latency : ℚ) (pos : 0 < latency)
  deriving DecidableEq

/-- The check of a latency in the constructor of `SlowConsumer`. -/
def Fault.slow (floatRepr : ℚ → String) : Float64 → Except PyExc Fault
  | .finite x =>
      if h : 0 < x then .ok (.slowConsumer x h)
      else .error (valueError ("latency must be finite positive seconds, got " ++ floatRepr x))
  | latency =>
      .error (valueError ("latency must be finite positive seconds, got " ++ latency.repr floatRepr))

def brokerUnavailableError : PyExc := ⟨"BrokerUnavailableError", "chaos: broker unavailable"⟩

def consumerCrashError : PyExc := ⟨"ConsumerCrashError", "chaos: consumer crashed before ack"⟩

/-- The `ChaosError` that a fault raises, where it raises one. -/
def Fault.chaosError : Fault → Option PyExc
  | .brokerUnavailable => some brokerUnavailableError
  | .crashBeforeAck => some consumerCrashError
  | .duplicateDelivery | .slowConsumer _ _ => none

/-- An injector, with the stream it draws from. -/
structure Injector where
  fault : Fault
  policy : FirePolicy
  rng : ℕ

section Factories
variable (floatRepr : ℚ → String)

def Injector.new (fault : Fault) (probability : Option Float64) (onCall : Option ℤ) (rng : ℕ) :
    Except PyExc Injector := do
  let policy ← FirePolicy.new floatRepr probability onCall
  return { fault, policy, rng }

def brokerUnavailable := Injector.new floatRepr .brokerUnavailable

def duplicateDelivery := Injector.new floatRepr .duplicateDelivery

def crashBeforeAck := Injector.new floatRepr .crashBeforeAck

def slowConsumer (latency : Float64) (probability : Option Float64) (onCall : Option ℤ) (rng : ℕ) :
    Except PyExc Injector := do
  let fault ← Fault.slow floatRepr latency
  Injector.new floatRepr fault probability onCall rng

/-- Every injector comes from one of the four factories. -/
theorem Injector.exists_factory (l : Injector) :
    ∃ probability onCall, brokerUnavailable floatRepr probability onCall l.rng = .ok l ∨
      duplicateDelivery floatRepr probability onCall l.rng = .ok l ∨
      crashBeforeAck floatRepr probability onCall l.rng = .ok l ∨
      ∃ latency, slowConsumer floatRepr latency probability onCall l.rng = .ok l := by
  obtain ⟨fault, policy, rng⟩ := l
  obtain ⟨p, n, hnew⟩ := policy.exists_new floatRepr
  refine ⟨p, n, ?_⟩
  cases fault with
  | brokerUnavailable => exact .inl (by simp only [Chaos.brokerUnavailable, new, hnew]; rfl)
  | duplicateDelivery => exact .inr (.inl (by simp only [Chaos.duplicateDelivery, new, hnew]; rfl))
  | crashBeforeAck => exact .inr (.inr (.inl (by simp only [Chaos.crashBeforeAck, new, hnew]; rfl)))
  | slowConsumer latency pos =>
    refine .inr (.inr (.inr ⟨.finite latency, ?_⟩))
    simp only [Chaos.slowConsumer, Fault.slow, dif_pos pos, new, hnew, bind, Except.bind]
    rfl

end Factories

/-- The counters of one injector. -/
structure Attrs where
  calls : ℕ := 0
  fires : ℕ := 0

variable {A T H : Type*}

/-- A call that has ended: the numbers it has drawn, whether a fault was injected, what its
invocations of the wrapped callable came to, one after the other, and what it came to itself. -/
structure CallRecord (A T : Type*) where
  depth : ℕ
  args : A
  draws : List Draw
  fired : Bool
  inner : List (Except PyExc T)
  outcome : Except PyExc T

structure World (A T H : Type*) where
  attrs : ℕ → Attrs := fun _ => {}
  drawn : ℕ → ℕ
  slept : ℚ := 0
  handler : H
  log : List (CallRecord A T) := []

namespace World
variable (w : World A T H)

/-- `self.calls += 1` -/
def countCall (i : ℕ) : World A T H :=
  { w with attrs := Function.update w.attrs i { w.attrs i with calls := (w.attrs i).calls + 1 } }

/-- `self.fires += 1` -/
def countFire (i : ℕ) : World A T H :=
  { w with attrs := Function.update w.attrs i { w.attrs i with fires := (w.attrs i).fires + 1 } }

def sleep (seconds : ℚ) : World A T H := { w with slept := w.slept + seconds }

def record (r : CallRecord A T) : World A T H := { w with log := w.log ++ [r] }

/-- `self.policy.should_fire(self.calls, self._rng)`, with the numbers it draws. -/
def shouldFire (streams : ℕ → ℕ → Draw) (i : ℕ) (l : Injector) : Bool × List Draw × World A T H :=
  match l.policy with
  | .probability p _ =>
      let x := streams l.rng (w.drawn l.rng)
      (x.val < p, [x],
        { w with drawn := Function.update w.drawn l.rng (w.drawn l.rng + 1) })
  | .onCall n _ => ((w.attrs i).calls = n, [], w)

end World

/-- `_fire` of the four subclasses: what the invocations of `wrapped` came to, and the call. -/
def Fault.fire (wrapped : World A T H → Except PyExc T × World A T H) (w : World A T H) :
    Fault → List (Except PyExc T) × Except PyExc T × World A T H
  | .brokerUnavailable => ([], .error brokerUnavailableError, w)
  | .duplicateDelivery =>
      match wrapped w with
      | (.error exc, w) => ([.error exc], .error exc, w)
      | (.ok value, w) =>
          let (outcome, w) := wrapped w
          ([.ok value, outcome], outcome, w)
  | .crashBeforeAck =>
      match wrapped w with
      | (.error exc, w) => ([.error exc], .error exc, w)
      | (.ok value, w) => ([.ok value], .error consumerCrashError, w)
  | .slowConsumer latency _ =>
      let (outcome, w) := wrapped (w.sleep latency)
      ([outcome], outcome, w)

section
variable (streams : ℕ → ℕ → Draw) (handle : H → A → Except PyExc T × H)

/-- A call of the injector at depth `i`, which wraps the given layers, or of the handler. -/
def call (i : ℕ) : List Injector → A → World A T H → Except PyExc T × World A T H
  | [], args, w =>
      let (outcome, handler) := handle w.handler args
      (outcome, { w with handler }.record ⟨i, args, [], false, [], outcome⟩)
  | l :: layers, args, w =>
      let (fired, draws, w) := (w.countCall i).shouldFire streams i l
      if fired then
        let (inner, outcome, w) := l.fault.fire (call (i + 1) layers args) (w.countFire i)
        (outcome, w.record ⟨i, args, draws, true, inner, outcome⟩)
      else
        let (outcome, w) := call (i + 1) layers args w
        (outcome, w.record ⟨i, args, draws, false, [outcome], outcome⟩)

def run (layers : List Injector) : List A → World A T H → List (Except PyExc T) × World A T H
  | [], w => ([], w)
  | args :: calls, w =>
      let (outcome, w) := call streams handle 0 layers args w
      let (outcomes, w) := run layers calls w
      (outcome :: outcomes, w)

end

end Chaos
