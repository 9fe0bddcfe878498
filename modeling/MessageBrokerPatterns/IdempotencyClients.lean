import MessageBrokerPatterns.ActionRun
import MessageBrokerPatterns.IdempotencyStore

/-!
# Many clients of one Redis dedup set

Every call of a `RedisIdempotencyStore` is a process of its own: `call` starts it, each `command`
lets its next Redis command take effect, and the last one returns. `mark_if_new` and
`mark_processed` are two commands, `SADD` and then `PEXPIRE NX`. A call may `fail` between its
commands, by an error or a cancellation, and leaves behind what its commands have done. The
server may drop the set at any moment from its expiry on.

The history, latest event first, tells when the set came and went, what each `SADD` added and
which marking calls were completed. The `adder` of a key is the call that put it into the set
that exists.
-/

namespace IdempotencyStore
open RedisSet
variable {ι : Type*}

/-- What `bool(added)`, `bool(member)` or nothing makes of the reply of the first command. -/
def Call.result : Call → ℕ → Answer
  | .isProcessed _, n => .bool (n ≠ 0)
  | .markProcessed _, _ => .none
  | .markIfNew _, n => .bool (n ≠ 0)

inductive Phase
  | idle
  | begun (c : Call)
  | added (c : Call) (n : ℕ)
  | ended (c : Call) (a : Answer)
  | failed (c : Call)
  deriving DecidableEq

inductive Event (ι : Type*)
  | created
  | dropped
  | sadd (i : ι) (key : String) (n : ℕ)
  | completed (i : ι)

inductive Action (ι : Type*)
  | call (i : ι) (c : Call)
  | command (i : ι)
  | fail (i : ι)
  | expire
  | tick (d : ℕ)

structure World (ι : Type*) where
  now : ℤ
  entry : Entry String
  phase : ι → Phase
  history : List (Event ι)

/-- Whether the set came or went when an entry replaced another. -/
def turn : Entry String → Entry String → List (Event ι)
  | none, some _ => [.created]
  | some _, none => [.dropped]
  | _, _ => []

namespace World

def init (now : ℤ) : World ι := ⟨now, none, fun _ => .idle, []⟩

/-- The server holds a new entry and the events are told of. -/
def hold (w : World ι) (entry : Entry String) (events : List (Event ι)) : World ι :=
  { w with entry := entry, history := events ++ (turn w.entry entry ++ w.history) }

@[simp] theorem hold_entry (w : World ι) (entry : Entry String) (events : List (Event ι)) :
    (w.hold entry events).entry = entry := rfl

@[simp] theorem hold_phase (w : World ι) (entry : Entry String) (events : List (Event ι)) :
    (w.hold entry events).phase = w.phase := rfl

variable [DecidableEq ι]

def enter (w : World ι) (i : ι) (p : Phase) : World ι :=
  { w with phase := Function.update w.phase i p }

@[simp] theorem enter_entry (w : World ι) (i : ι) (p : Phase) :
    (w.enter i p).entry = w.entry := rfl

@[simp] theorem enter_history (w : World ι) (i : ι) (p : Phase) :
    (w.enter i p).history = w.history := rfl

@[simp] theorem enter_phase_self (w : World ι) (i : ι) (p : Phase) :
    (w.enter i p).phase i = p := by simp [enter]

theorem enter_phase_of_ne (w : World ι) {i j : ι} (h : j ≠ i) (p : Phase) :
    (w.enter i p).phase j = w.phase j := by simp [enter, h]

def sadd (w : World ι) (i : ι) (c : Call) : World ι :=
  let (n, entry) := RedisSet.sadd w.entry c.key
  (w.hold entry [.sadd i c.key n]).enter i (.added c n)

def pexpire (w : World ι) (millis : ℤ) (i : ι) (c : Call) (n : ℕ) : World ι :=
  (w.hold (RedisSet.pexpire w.now w.entry millis true).2 [.completed i]).enter i
    (.ended c (c.result n))

variable (millis : ℤ → ℤ) (ttl : ι → Ttl)

def command (w : World ι) (i : ι) : Option (World ι) :=
  match w.phase i with
  | .begun (.isProcessed key) =>
    let c := Call.isProcessed key
    some (w.enter i (.ended c (c.result (sismember w.entry key))))
  | .begun c => some (w.sadd i c)
  | .added c n => some (w.pexpire (millis (ttl i)) i c n)
  | _ => none

def fail (w : World ι) (i : ι) : Option (World ι) :=
  match w.phase i with
  | .begun c => some (w.enter i (.failed c))
  | .added c _ => some (w.enter i (.failed c))
  | _ => none

def step (w : World ι) : Action ι → Option (World ι)
  | .call i c => if w.phase i = .idle then some (w.enter i (.begun c)) else none
  | .command i => w.command millis ttl i
  | .fail i => w.fail i
  | .expire => if due w.now w.entry then some (w.hold none []) else none
  | .tick d => some { w with now := w.now + d }

/-- What a step may do. -/
inductive Move (w : World ι) : Action ι → World ι → Prop
  | call {i : ι} {c : Call} (h : w.phase i = .idle) : Move w (.call i c) (w.enter i (.begun c))
  | sismember {i : ι} {key : String} (h : w.phase i = .begun (.isProcessed key)) :
    Move w (.command i) (w.enter i
      (.ended (.isProcessed key) (.bool (RedisIdempotencyStore.isProcessed w.entry key))))
  | sadd {i : ι} {c : Call} (h : w.phase i = .begun c) (hc : c.Marks c.key) :
    Move w (.command i) (w.sadd i c)
  | pexpire {i : ι} {c : Call} {n : ℕ} (h : w.phase i = .added c n) :
    Move w (.command i) (w.pexpire (millis (ttl i)) i c n)
  | fail {i : ι} {c : Call} (h : w.phase i = .begun c ∨ ∃ n, w.phase i = .added c n) :
    Move w (.fail i) (w.enter i (.failed c))
  | expire (h : due w.now w.entry) : Move w .expire (w.hold none [])
  | tick (d : ℕ) : Move w (.tick d) { w with now := w.now + d }

variable {millis ttl}

theorem step_cases {w t : World ι} {a : Action ι} (h : step millis ttl w a = some t) :
    Move millis ttl w a t := by
  cases a with
  | call i c =>
    simp only [step, Option.ite_none_right_eq_some, Option.some.injEq] at h
    obtain ⟨hp, rfl⟩ := h
    exact .call hp
  | command i =>
    simp only [step, command] at h
    split at h
    · rename_i key hp
      cases h
      exact .sismember hp
    · rename_i c hc hp
      cases h
      apply Move.sadd hp
      cases c with
      | isProcessed key => exact absurd rfl (hc key)
      | markProcessed key => exact Or.inl rfl
      | markIfNew key => exact Or.inr rfl
    · rename_i c n hp
      cases h
      exact .pexpire hp
    · cases h
  | fail i =>
    simp only [step, fail] at h
    split at h
    · rename_i c hp
      cases h
      exact .fail (Or.inl hp)
    · rename_i c n hp
      cases h
      exact .fail (Or.inr ⟨n, hp⟩)
    · cases h
  | expire =>
    simp only [step, Option.ite_none_right_eq_some, Option.some.injEq] at h
    obtain ⟨hd, rfl⟩ := h
    exact .expire hd
  | tick d =>
    cases h
    exact .tick d

/-- Undisturbed, a marking call does what the store's own call does at one instant. -/
theorem run_mark_eq (w : World ι) (i : ι) (c : Call) (hc : c.Marks c.key)
    (hi : w.phase i = .idle) :
    ∃ t, ActionRun.run (step millis ttl) w [.call i c, .command i, .command i] = some t ∧
      t.entry = (RedisIdempotencyStore.markIfNew millis (ttl i) w.now w.entry c.key).2 ∧
      t.phase i = .ended c (c.result (RedisSet.sadd w.entry c.key).1) := by
  have hadd : ((w.enter i (.begun c)).command millis ttl i) =
      some ((w.enter i (.begun c)).sadd i c) := by
    rcases c with key | key | key
    · rcases hc with hc | hc <;> cases hc
    · simp only [command, enter_phase_self]
    · simp only [command, enter_phase_self]
  refine ⟨((w.enter i (.begun c)).sadd i c).pexpire (millis (ttl i)) i c
    (RedisSet.sadd w.entry c.key).1, ?_, rfl, ?_⟩
  · simp only [ActionRun.run_cons, step, hi, if_true, hadd, Option.bind_some]
    simp only [command, sadd, enter_phase_self, Option.bind_some]
    rfl
  · simp [pexpire]

end World

end IdempotencyStore
