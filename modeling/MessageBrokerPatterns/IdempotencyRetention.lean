import MessageBrokerPatterns.IdempotencyClients

/-!
# Retention in Redis

With one `ttl` for all clients a set that has an expiry expires at most `ttl` from now on, and
its expiry never moves. A set has none only as long as no marking call has been completed since
it was created, since the `PEXPIRE NX` of every completed call finds or sets one, also when the
set that the call added to has expired in between.
-/

namespace IdempotencyStore
open RedisSet
variable {ι : Type*}

/-- A marking call has been completed since the set last came to exist. -/
def CompletedSinceCreated : List (Event ι) → Prop
  | [] => False
  | .created :: _ => False
  | .completed _ :: _ => True
  | .dropped :: history => CompletedSinceCreated history
  | .sadd _ _ _ :: history => CompletedSinceCreated history

structure Retained (ttl : Ttl) (w : World ι) : Prop where
  expiry_le : ∀ e, expiry w.entry = some e → e ≤ w.now + ttl.val
  not_completed : w.entry ≠ none → expiry w.entry = none → ¬ CompletedSinceCreated w.history

theorem retained_init (ttl : Ttl) (now : ℤ) : Retained ttl (World.init now : World ι) :=
  ⟨fun e h => (by cases h), fun h => absurd rfl h⟩

variable [DecidableEq ι] {millis : ℤ → ℤ} {ttl : Ttl}

theorem Retained.enter {w : World ι} (h : Retained ttl w) (i : ι) (p : Phase) :
    Retained ttl (w.enter i p) := ⟨h.expiry_le, h.not_completed⟩

theorem Retained.sadd {w : World ι} (h : Retained ttl w) (i : ι) (c : Call) :
    Retained ttl (w.sadd i c) := by
  constructor
  · intro e he
    apply h.expiry_le
    rw [← expiry_sadd w.entry c.key]
    exact he
  · intro _ he
    have hexp : expiry w.entry = none := by
      rw [← expiry_sadd w.entry c.key]
      exact he
    cases hw : w.entry with
    | none => simp [World.sadd, World.hold, hw, turn, RedisSet.sadd, CompletedSinceCreated]
    | some v =>
      have hn := h.not_completed (by simp [hw]) hexp
      simpa [World.sadd, World.hold, hw, turn, RedisSet.sadd, CompletedSinceCreated] using hn

/-- The call that completes leaves no set or a set that expires within `ttl`. -/
theorem Retained.pexpire_entry {w : World ι} (h : Retained ttl w)
    (hms : millis ttl * 1000 ≤ ttl.val) (i : ι) (c : Call) (n : ℕ) :
    (w.pexpire (millis ttl) i c n).entry = none ∨
      ∃ e, expiry (w.pexpire (millis ttl) i c n).entry = some e ∧ e ≤ w.now + ttl.val := by
  obtain hnone | ⟨e, he, hold | rfl⟩ := pexpire_nx_cases w.now w.entry (millis ttl)
  · exact Or.inl hnone
  · exact Or.inr ⟨e, he, h.expiry_le e hold⟩
  · exact Or.inr ⟨_, he, by omega⟩

theorem Retained.pexpire {w : World ι} (h : Retained ttl w) (hms : millis ttl * 1000 ≤ ttl.val)
    (i : ι) (c : Call) (n : ℕ) : Retained ttl (w.pexpire (millis ttl) i c n) := by
  obtain hnone | ⟨e, he, hle⟩ := h.pexpire_entry hms i c n
  · refine ⟨fun e he => ?_, fun hw => absurd hnone hw⟩
    rw [hnone] at he
    cases he
  · constructor
    · intro e' he'
      rw [he] at he'
      cases he'
      exact hle
    · intro _ hexp
      rw [he] at hexp
      cases hexp

theorem retained_step (hms : millis ttl * 1000 ≤ ttl.val) {w t : World ι} {a : Action ι}
    (h : Retained ttl w) (hstep : World.step millis (fun _ => ttl) w a = some t) :
    Retained ttl t := by
  cases World.step_cases hstep with
  | call _ => exact h.enter _ _
  | sismember _ => exact h.enter _ _
  | sadd _ _ => exact h.sadd _ _
  | pexpire _ => exact h.pexpire hms _ _ _
  | fail _ => exact h.enter _ _
  | expire _ => exact ⟨fun e he => (by cases he), fun hw => absurd rfl hw⟩
  | tick d =>
    refine ⟨fun e he => ?_, h.not_completed⟩
    have hle := h.expiry_le e he
    show e ≤ w.now + d + ttl.val
    omega

theorem expiry_step {ttls : ι → Ttl} {w t : World ι} {a : Action ι} {e : ℤ}
    (hstep : World.step millis ttls w a = some t) (he : expiry w.entry = some e) :
    t.entry = none ∨ expiry t.entry = some e := by
  cases World.step_cases hstep with
  | call _ => exact Or.inr he
  | sismember _ => exact Or.inr he
  | sadd _ _ => exact Or.inr ((expiry_sadd _ _).trans he)
  | pexpire _ =>
    right
    have hsome : (expiry w.entry).isSome := by simp [he]
    simp only [World.pexpire, World.enter_entry, World.hold_entry, pexpire_nx_of_isSome hsome]
    exact he
  | fail _ => exact Or.inr he
  | expire _ => exact Or.inl rfl
  | tick d => exact Or.inr he

/-- Retention is bounded by the `ttl` and heals itself with the next completed call. -/
theorem World.retention_bounded (millis : ℤ → ℤ) (ttl : Ttl) (hms : millis ttl * 1000 ≤ ttl.val)
    (now : ℤ) (actions : List (Action ι)) (w : World ι)
    (hrun : ActionRun.run (step millis fun _ => ttl) (init now) actions = some w) :
    (∀ i c n t, w.phase i = .added c n → step millis (fun _ => ttl) w (.command i) = some t →
      t.entry = none ∨ ∃ e, expiry t.entry = some e ∧ e ≤ t.now + ttl.val) ∧
    (∀ a t e, step millis (fun _ => ttl) w a = some t → expiry w.entry = some e →
      t.entry = none ∨ expiry t.entry = some e) ∧
    (w.entry ≠ none → expiry w.entry = none → ¬ CompletedSinceCreated w.history) := by
  have h : Retained ttl w := ActionRun.run_invariant_of_step
    (fun s a t hi hs => retained_step hms hi hs) (retained_init ttl now) hrun
  refine ⟨fun i c n t hp ht => ?_, fun a t e => expiry_step, h.not_completed⟩
  simp only [step, command, hp, Option.some.injEq] at ht
  subst ht
  exact h.pexpire_entry hms i c n

/-- An aborted call leaves a set without expiry, which the next completed call gives one. -/
theorem World.retention_bounded_after_abort :
    ∃ w t, ActionRun.run (step (· / 1000) fun _ => ⟨2000, by decide⟩) (init 0 : World ℕ)
        [.call 0 (.markIfNew "a"), .command 0, .fail 0, .tick 5, .call 1 (.markProcessed "b"),
          .command 1] = some w ∧
      expiry w.entry = none ∧
      step (· / 1000) (fun _ => ⟨2000, by decide⟩) w (.command 1) = some t ∧
      expiry t.entry = some 2005 ∧
      (t.entry = none ∨ ∃ e, expiry t.entry = some e ∧ e ≤ t.now + 2000) := by
  obtain ⟨w, t, hw, hp, hexp, ht, htexp⟩ :
      ∃ w t, ActionRun.run (step (· / 1000) fun _ => ⟨2000, by decide⟩) (init 0 : World ℕ)
          [.call 0 (.markIfNew "a"), .command 0, .fail 0, .tick 5, .call 1 (.markProcessed "b"),
            .command 1] = some w ∧
        w.phase 1 = .added (.markProcessed "b") 1 ∧ expiry w.entry = none ∧
        step (· / 1000) (fun _ => ⟨2000, by decide⟩) w (.command 1) = some t ∧
        expiry t.entry = some 2005 := ⟨_, _, rfl, rfl, rfl, rfl, rfl⟩
  have h := retention_bounded (· / 1000) ⟨2000, by decide⟩ (by decide) 0 _ w hw
  exact ⟨w, t, hw, hexp, ht, htexp, h.1 1 _ 1 t hp ht⟩

end IdempotencyStore
