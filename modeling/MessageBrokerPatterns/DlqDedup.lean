import MessageBrokerPatterns.DlqCharging
import MessageBrokerPatterns.IdempotencyMemory
import MessageBrokerPatterns.Chaos

/-!
# A handler that dedups its own work

The guard of the consumer is written after the handler, so that a failure between the two lets the
handler run again. Here the handler claims the payment id in an `InMemoryIdempotencyStore` and charges
only when the claim is new. The claim and the charge stand between two awaits: `body` performs both.

The consumers of one process share the store. The handler they are given may be wrapped in fault
injectors, so that one call of it runs the body not at all, once or again, is delayed in between,
and then returns or raises; a call that returns has run the body to its end. `mark_if_new` raises
where the retention would end after the last date, and nothing is charged then.

Two charges of one payment id are then at least `ttl` apart, whatever crashes, is delivered twice or
runs at the same time, and a payment whose handler has returned has been charged.
-/

namespace Dlq
open PyText PyDict RedisStream ActionRun IdempotencyStore ExpiringLedger

/-- The process: its consumers, the store of its handler with the last reading of the clock, the
charges made so far, and which consumers' current handler call has run the body. -/
structure Till where
  world : World := {}
  store : InMemoryIdempotencyStore
  now : ℤ
  charges : List (String × ℤ) := []
  ran : String → Bool := fun _ => false

inductive TillAction
  | pipeline (a : Action)
  | body (c : String) (now : ℤ)

def Action.actor : Action → Option String
  | .publish _ => none
  | .xadd _ => none
  | .start c _ _ => some c
  | .stop c => some c
  | .run c => some c
  | .handler c _ => some c
  | .crash c => some c

namespace Till

/-- `if await store.mark_if_new(payment.payment_id): charged.append(payment.payment_id)` -/
def dedupHandler (store : InMemoryIdempotencyStore) (charges : List (String × ℤ)) (now : ℤ)
    (p : Payment) : Except PyExc Unit × InMemoryIdempotencyStore × List (String × ℤ) :=
  match store.markIfNew now p.paymentId with
  | (.ok true, store) => (.ok (), store, charges ++ [(p.paymentId, now)])
  | (.ok false, store) => (.ok (), store, charges)
  | (.error e, store) => (.error e, store, charges)

/-- A call of the handler returns normally after it has run the body. -/
def Allowed (s : Till) : Action → Prop
  | .handler c none => s.ran c = true
  | _ => True

instance (s : Till) : DecidablePred s.Allowed := fun a =>
  match a with
  | .handler c none => inferInstanceAs (Decidable (s.ran c = true))
  | .handler _ (some _) | .publish _ | .xadd _ | .start _ _ _ | .stop _ | .run _ | .crash _ =>
      inferInstanceAs (Decidable True)

def step (s : Till) : TillAction → Option Till
  | .pipeline a =>
      if s.Allowed a then
        (s.world.step a).map fun w => { s with
          world := w
          ran := fun c => if a.actor = some c then false else s.ran c }
      else none
  | .body c now =>
      match s.world.awaits c with
      | some p =>
          if s.now ≤ now then
            match dedupHandler s.store s.charges now p with
            | (.ok _, store, charges) =>
                some { s with store, now, charges, ran := Function.update s.ran c true }
            | (.error _, store, charges) => some { s with store, now, charges }
          else none
      | none => none

def fresh (ttl : Ttl) (now : ℤ) : Till := { store := .empty ttl, now }

end Till

def lastCharge (charges : List (String × ℤ)) : LastRecorded :=
  charges.foldl (fun last e => ExpiringLedger.record last e.1 e.2) fun _ => none

theorem lastCharge_append (charges : List (String × ℤ)) (pid : String) (now : ℤ) :
    lastCharge (charges ++ [(pid, now)]) = ExpiringLedger.record (lastCharge charges) pid now := by
  rw [lastCharge, List.foldl_append]
  rfl

theorem mem_of_lastCharge {charges : List (String × ℤ)} {pid : String} {t : ℤ}
    (h : lastCharge charges pid = some t) : (pid, t) ∈ charges := by
  induction charges using List.reverseRecOn generalizing t with
  | nil => cases h
  | append_singleton charges e ih =>
    obtain ⟨q, now⟩ := e
    rw [lastCharge_append, ExpiringLedger.record] at h
    by_cases hq : pid = q
    · subst hq
      rw [Function.update_self, Option.some.injEq] at h
      exact List.mem_append_right _ (by rw [h]; exact List.mem_singleton_self _)
    · rw [Function.update_of_ne hq] at h
      exact List.mem_append_left _ (ih h)

theorem le_lastCharge {charges : List (String × ℤ)}
    (hsorted : charges.Pairwise fun a b => a.1 = b.1 → a.2 ≤ b.2) {pid : String} {t : ℤ}
    (h : (pid, t) ∈ charges) : ∃ m, lastCharge charges pid = some m ∧ t ≤ m := by
  induction charges using List.reverseRecOn generalizing t with
  | nil => cases h
  | append_singleton charges e ih =>
    obtain ⟨q, now⟩ := e
    obtain ⟨hold, -, hnew⟩ := List.pairwise_append.mp hsorted
    rw [lastCharge_append, ExpiringLedger.record]
    by_cases hq : pid = q
    · subst hq
      refine ⟨now, Function.update_self _ _ _, ?_⟩
      rcases List.mem_append.mp h with h | h
      · exact hnew _ h _ (List.mem_singleton_self _) rfl
      · cases List.mem_singleton.mp h
        exact le_rfl
    · rw [Function.update_of_ne hq]
      rcases List.mem_append.mp h with h | h
      · exact ih hold h
      · cases List.mem_singleton.mp h
        exact absurd rfl hq

namespace World

theorem consumers_of_step {w w' : World} {a : Action} (h : step w a = some w') {d : String}
    (hd : a.actor ≠ some d) : w'.consumers d = w.consumers d := by
  have hne {c : String} (ha : a.actor = some c) : d ≠ c := by
    rintro rfl
    exact hd ha
  cases Effect.of_step h with
  | publish p => rfl
  | xadd f => rfl
  | start c maxAttempts count hend => exact w.setConsumer_of_ne (hne rfl) _
  | stop c k hk hpc => exact w.setConsumer_of_ne (hne rfl) _
  | move _ c k k' s' evs hact hk hm =>
    refine w.setConsumer_of_ne (hne ?_) _
    rcases hact with rfl | ⟨failure, m, rfl, -⟩ <;> rfl
  | crash c k hk hend => exact w.setConsumer_of_ne (hne rfl) _

theorem handled_of_step {w w' : World} {a : Action} (h : step w a = some w') {c : String} {id : ℕ}
    {p : Payment} (hm : Event.handled c id p none ∈ w'.trace) :
    Event.handled c id p none ∈ w.trace ∨ a = .handler c none ∧ w.awaits c = some p := by
  cases a with
  | run d =>
    cases hk : w.consumers d with
    | none => simp [step, hk] at h
    | some k =>
      cases hc : k.command d w.server with
      | none => simp [step, hk, hc] at h
      | some r =>
        obtain ⟨k', s', evs⟩ := r
        simp only [step, hk, hc, Option.some.injEq] at h
        subst h
        refine (List.mem_append.mp hm).imp_right fun hin => ?_
        cases Move.of_command hc with
        | returns m hpc => simp [Consumer.command, hpc] at hc
        | retry m exc hpc hlt => simp [Consumer.command, hpc] at hc
        | exhaust m exc hpc hge => simp [Consumer.command, hpc] at hc
        | _ => simp at hin
  | handler d failure =>
    cases hk : w.consumers d with
    | none => simp [step, hk] at h
    | some k =>
      cases hc : k.handlerEnds d failure with
      | none => simp [step, hk, hc] at h
      | some r =>
        obtain ⟨k', evs⟩ := r
        simp only [step, hk, hc, Option.some.injEq] at h
        subst h
        refine (List.mem_append.mp hm).imp_right fun hin => ?_
        unfold Consumer.handlerEnds at hc
        split at hc
        · rename_i m hpc
          cases failure with
          | none =>
            cases hc
            cases List.mem_singleton.mp hin
            exact ⟨rfl, by simp only [awaits, hk, hpc]⟩
          | some exc =>
            simp only at hc
            split_ifs at hc <;>
            · cases hc
              cases List.mem_singleton.mp hin
        · cases hc
  | crash d =>
    cases Effect.of_step h with
    | crash _ k hk hend =>
      refine (List.mem_append.mp hm).imp_right fun hin => ?_
      unfold crashEvents at hin
      split at hin
      · cases List.mem_singleton.mp hin
      · cases hin
    | move _ d k k' s' evs hact hk hmove => simp at hact
  | _ =>
    cases Effect.of_step h with
    | move _ d k k' s' evs hact hk hmove => simp at hact
    | _ => exact Or.inl hm

end World

namespace Till

/-- The store remembers the last charge of every payment id, charges of one id are `ttl` apart, and a
handler call that has run its body has its payment charged. -/
structure TillInv (ttl : Ttl) (start : ℤ) (s : Till) : Prop where
  agrees : InMemoryIdempotencyStore.Agrees ttl s.now s.store (lastCharge s.charges)
  apart : s.charges.Pairwise fun a b => a.1 = b.1 → a.2 + ttl.val ≤ b.2
  clock : start ≤ s.now
  span : ∀ e ∈ s.charges, start ≤ e.2 ∧ e.2 ≤ s.now
  ran : ∀ c p, s.ran c = true → s.world.awaits c = some p → ∃ t, (p.paymentId, t) ∈ s.charges
  returned : ∀ c id p, Event.handled c id p none ∈ s.world.trace →
    ∃ t, (p.paymentId, t) ∈ s.charges

theorem tillInv_fresh (ttl : Ttl) (now : ℤ) : TillInv ttl now (fresh ttl now) where
  agrees := InMemoryIdempotencyStore.agrees_empty ttl now
  apart := List.Pairwise.nil
  clock := le_rfl
  span e h := by cases h
  ran c p h := by cases h
  returned c id p h := by cases h

/-- Two charges of one payment id are at least `ttl` apart. -/
def Apart (ttl : Ttl) (charges : List (String × ℤ)) : Prop :=
  charges.Pairwise fun a b => a.1 = b.1 → a.2 + ttl.val ≤ b.2

/-- A charge of a payment id that is not live in the ledger comes `ttl` after those before it. -/
theorem Apart.append {ttl : Ttl} {charges : List (String × ℤ)} (h : Apart ttl charges) {now : ℤ}
    {pid : String} (hdead : ¬ LiveAt ttl.val now (lastCharge charges) pid) :
    Apart ttl (charges ++ [(pid, now)]) := by
  refine List.pairwise_append.mpr ⟨h, List.pairwise_singleton _ _, fun e he e' he' hkey => ?_⟩
  cases List.mem_singleton.mp he'
  have hsorted : charges.Pairwise fun a b => a.1 = b.1 → a.2 ≤ b.2 := by
    refine h.imp fun h hk => ?_
    have := h hk
    have := ttl.property
    omega
  obtain ⟨q, t⟩ := e
  obtain rfl : q = pid := hkey
  obtain ⟨m, hm, hle⟩ := le_lastCharge hsorted he
  rcases not_liveAt_iff.mp hdead with hnone | ⟨m', hm', hold⟩
  · rw [hm] at hnone
    cases hnone
  · rw [hm, Option.some.injEq] at hm'
    change t + ttl.val ≤ now
    omega

/-- The body charges a payment whose last charge is `ttl` ago, and leaves the others as they are. If
it returns, the payment has been charged. -/
theorem dedupHandler_spec {ttl : Ttl} {store : InMemoryIdempotencyStore}
    {charges : List (String × ℤ)} {now : ℤ}
    (h : InMemoryIdempotencyStore.Agrees ttl now store (lastCharge charges))
    (hapart : Apart ttl charges) (p : Payment) :
    let r := dedupHandler store charges now p
    InMemoryIdempotencyStore.Agrees ttl now r.2.1 (lastCharge r.2.2) ∧ Apart ttl r.2.2 ∧
      charges ⊆ r.2.2 ∧ (∀ e ∈ r.2.2, e ∈ charges ∨ e.2 = now) ∧
      (∀ v, r.1 = .ok v → ∃ t, (p.paymentId, t) ∈ r.2.2) := by
  have hread := h.isLive_fst p.paymentId
  have hagrees := h.isLive p.paymentId
  have hsub : charges ⊆ charges := List.Subset.refl charges
  by_cases hlive : LiveAt ttl.val now (lastCharge charges) p.paymentId
  · rw [decide_eq_true hlive] at hread
    obtain ⟨m, hm, -⟩ := hlive
    simp only [dedupHandler, InMemoryIdempotencyStore.markIfNew_of_live hread]
    exact ⟨hagrees, hapart, hsub, fun e he => Or.inl he, fun _ _ => ⟨m, mem_of_lastCharge hm⟩⟩
  · rw [decide_eq_false hlive] at hread
    simp only [dedupHandler, InMemoryIdempotencyStore.markIfNew_of_not_live hread]
    rcases le_or_gt (now + ttl.val) datetimeMax with hdate | hdate
    · obtain ⟨hok, hrecorded⟩ := hagrees.record hdate p.paymentId
      simp only [hok, Except.map]
      refine ⟨by rw [lastCharge_append]; exact hrecorded, hapart.append hlive,
        List.subset_append_left _ _, fun e he => ?_,
        fun _ _ => ⟨now, List.mem_append_right _ (List.mem_singleton_self _)⟩⟩
      refine (List.mem_append.mp he).imp_right fun hin => ?_
      rw [List.mem_singleton.mp hin]
    · obtain ⟨hraised, hpurged⟩ := hagrees.record_overflow hdate p.paymentId
      simp only [hraised, Except.map]
      exact ⟨hpurged, hapart, hsub, fun e he => Or.inl he, fun v hv => by cases hv⟩

theorem tillInv_step {ttl : Ttl} {start : ℤ} (s : Till) (a : TillAction) (s' : Till)
    (h : TillInv ttl start s) (hs : s.step a = some s') : TillInv ttl start s' := by
  cases a with
  | pipeline a =>
    simp only [step] at hs
    split_ifs at hs with hallowed
    obtain ⟨w, hw, rfl⟩ := Option.map_eq_some_iff.mp hs
    refine ⟨h.agrees, h.apart, h.clock, h.span, fun c p hran hawaits => ?_, fun c id p hm => ?_⟩
    · change (if a.actor = some c then false else s.ran c) = true at hran
      split_ifs at hran with hc
      have hsame : w.awaits c = s.world.awaits c := by
        rw [World.awaits, World.awaits, World.consumers_of_step hw hc]
      exact h.ran c p hran (hsame ▸ hawaits)
    · rcases World.handled_of_step hw hm with hm | ⟨rfl, hawaits⟩
      · exact h.returned c id p hm
      · exact h.ran c p hallowed hawaits
  | body c now =>
    cases hp : s.world.awaits c with
    | none => simp [step, hp] at hs
    | some p =>
      simp only [step, hp] at hs
      split_ifs at hs with hnow
      have hspec := dedupHandler_spec (h.agrees.mono hnow) h.apart p
      generalize dedupHandler s.store s.charges now p = out at hs hspec
      obtain ⟨r, store, charges⟩ := out
      obtain ⟨hagrees, hapart, hsub, htimes, hcharged⟩ := hspec
      have hspan : ∀ e ∈ charges, start ≤ e.2 ∧ e.2 ≤ now := by
        intro e he
        rcases htimes e he with he | he
        · exact ⟨(h.span e he).1, (h.span e he).2.trans hnow⟩
        · rw [he]
          exact ⟨h.clock.trans hnow, le_rfl⟩
      have hran : ∀ d q, s.ran d = true → s.world.awaits d = some q →
          ∃ t, (q.paymentId, t) ∈ charges := by
        intro d q hran hawaits
        obtain ⟨u, hu⟩ := h.ran d q hran hawaits
        exact ⟨u, hsub hu⟩
      have hreturned : ∀ d id q, Event.handled d id q none ∈ s.world.trace →
          ∃ t, (q.paymentId, t) ∈ charges := by
        intro d id q hm
        obtain ⟨u, hu⟩ := h.returned d id q hm
        exact ⟨u, hsub hu⟩
      cases r with
      | error e =>
        cases hs
        exact ⟨hagrees, hapart, h.clock.trans hnow, hspan, hran, hreturned⟩
      | ok v =>
        cases hs
        refine ⟨hagrees, hapart, h.clock.trans hnow, hspan, fun d q hd hawaits => ?_, hreturned⟩
        by_cases hdc : d = c
        · subst hdc
          obtain rfl := Option.some.inj (hp.symm.trans hawaits)
          exact hcharged v rfl
        · change Function.update s.ran c true d = true at hd
          rw [Function.update_of_ne hdc] at hd
          exact hran d q hd hawaits

theorem TillInv.charged_once {ttl : Ttl} {start : ℤ} {s : Till} (h : TillInv ttl start s)
    (hspan : s.now < start + ttl.val) (pid : String) :
    s.charges.countP (fun e => e.1 = pid) ≤ 1 := by
  rw [List.countP_eq_length_filter]
  have hp := h.apart.filter fun e => e.1 = pid
  have hmem : ∀ e ∈ s.charges.filter fun e => e.1 = pid, e.1 = pid ∧ start ≤ e.2 ∧ e.2 ≤ s.now := by
    intro e he
    obtain ⟨he, hk⟩ := List.mem_filter.mp he
    exact ⟨by simpa using hk, h.span e he⟩
  generalize s.charges.filter (fun e => e.1 = pid) = l at hp hmem ⊢
  cases l with
  | nil => exact Nat.zero_le 1
  | cons a l =>
    cases l with
    | nil => exact le_rfl
    | cons b l =>
      have ha := hmem a List.mem_cons_self
      have hb := hmem b (List.mem_cons_of_mem _ List.mem_cons_self)
      have := (List.pairwise_cons.mp hp).1 b List.mem_cons_self (ha.1.trans hb.1.symm)
      omega

/-- With a handler that dedups its own work and a clock that does not run backwards, whatever crashes,
is retried, delivered twice or runs at the same time: two charges of one payment id are at least
`ttl` apart, within one `ttl` there is at most one, and a payment whose handler has returned has been
charged. -/
theorem charges_ttl_apart (ttl : Ttl) (start : ℤ) (actions : List TillAction) (s : Till)
    (hrun : run step (fresh ttl start) actions = some s) :
    (s.charges.Pairwise fun a b => a.1 = b.1 → a.2 + ttl.val ≤ b.2) ∧
      (s.now < start + ttl.val → ∀ pid, s.charges.countP (fun e => e.1 = pid) ≤ 1) ∧
      ∀ c id p, Event.handled c id p none ∈ s.world.trace →
        ∃ t, (p.paymentId, t) ∈ s.charges := by
  have h : TillInv ttl start s := run_invariant_of_step tillInv_step (tillInv_fresh ttl start) hrun
  exact ⟨h.apart, fun hspan pid => h.charged_once hspan pid, h.returned⟩

/-- An injector raises once the body has charged, which the consumer counts as a failure of the
handler; the payment comes back and is not charged again. -/
def crashedAfterCharge : List TillAction :=
  [.pipeline (.publish World.rent), .pipeline (.start "worker-1" 3 10),
    .pipeline (.run "worker-1"), .pipeline (.run "worker-1"), .body "worker-1" 5,
    .pipeline (.handler "worker-1" (some Chaos.consumerCrashError)),
    .pipeline (.run "worker-1"), .pipeline (.run "worker-1"), .pipeline (.run "worker-1"),
    .body "worker-1" 8, .pipeline (.handler "worker-1" none)]

theorem crashedAfterCharge_charged_once :
    ∃ s, run step (fresh ⟨300, by decide⟩ 0) crashedAfterCharge = some s ∧
      s.world.trace = [.handled "worker-1" 1 World.rent (some Chaos.consumerCrashError),
        .handled "worker-1" 1 World.rent none] ∧
      s.charges.countP (fun e => e.1 = "pay-7") ≤ 1 := by
  refine ⟨_, rfl, rfl, ?_⟩
  exact (charges_ttl_apart ⟨300, by decide⟩ 0 crashedAfterCharge _ rfl).2.1 (by decide) "pay-7"

end Till
end Dlq
