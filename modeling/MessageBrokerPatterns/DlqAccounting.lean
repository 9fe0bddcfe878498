import MessageBrokerPatterns.DlqConsumer

/-!
# Where every published payment is

In every reachable state of any number of consumers, with crashes and broker errors anywhere, an
entry of the main stream is undelivered, or pending, or its payment id is recorded as processed,
or a dead letter with its payment exists, or its `move_to_dlq` has executed its `XACK` and not
its `XADD`: a consumer stands between the two commands, or a crash has struck exactly there.
-/

namespace Dlq
open PyText PyDict RedisStream

/-- The message in hand and those behind it are entries of the main stream, and a payment that is
acknowledged as a duplicate or as handled is recorded. -/
def Consumer.Faithful (k : Consumer) (s : Server) : Prop :=
  match k.pc with
  | .busy m stage =>
      (∃ f, entryAt s.main.entries m.id = some f ∧ Payment.fromFields f = .ok m.payment) ∧
      (∀ e ∈ m.rest, entryAt s.main.entries e.1 = some e.2) ∧
      ((stage = .skipAck ∨ stage = .ack) → m.payment.paymentId ∈ s.processed)
  | _ => True

/-- Nothing is ever taken off a stream or out of the processed set. -/
structure Server.Le (s s' : Server) : Prop where
  entries : ∀ id f, entryAt s.main.entries id = some f → entryAt s'.main.entries id = some f
  processed : s.processed ⊆ s'.processed
  dlq : s.dlq ⊆ s'.dlq

theorem Server.Le.refl (s : Server) : s.Le s := ⟨fun _ _ h => h, fun _ h => h, fun _ h => h⟩

theorem Server.Le.xadd (s : Server) (f : Fields) : s.Le { s with main := s.main.xadd f } where
  entries id g h := by
    have hle := entryAt_some_le h
    change entryAt (s.main.entries ++ [f]) id = some g
    rwa [entryAt_append_of_le hle.2]
  processed _ h := h
  dlq _ h := h

theorem Consumer.Faithful.mono {k : Consumer} {s s' : Server} (hle : s.Le s')
    (h : k.Faithful s) : k.Faithful s' := by
  unfold Consumer.Faithful at h ⊢
  split
  · rename_i m stage hpc
    rw [hpc] at h
    obtain ⟨⟨f, hf, hp⟩, hrest, hst⟩ := h
    exact ⟨⟨f, hle.entries _ _ hf, hp⟩, fun e he => hle.entries _ _ (hrest e he),
      fun hs => hle.processed (hst hs)⟩
  · trivial

theorem Consumer.faithful_forBatch (k : Consumer) {s : Server} {batch : List (ℕ × Fields)}
    (h : ∀ e ∈ batch, entryAt s.main.entries e.1 = some e.2) : (k.forBatch batch).Faithful s := by
  cases batch with
  | nil => trivial
  | cons e rest =>
    obtain ⟨id, f⟩ := e
    cases hp : Payment.fromFields f with
    | error x => simp [Consumer.forBatch, hp, Consumer.Faithful]
    | ok p =>
      simp only [Consumer.forBatch, hp, Consumer.Faithful]
      exact ⟨⟨f, h _ List.mem_cons_self, hp⟩, fun e he => h e (List.mem_cons_of_mem _ he), by simp⟩

theorem Consumer.Faithful.busy {k : Consumer} {s : Server} {m : Held} {stage : Stage}
    (h : k.Faithful s) (hpc : k.pc = .busy m stage) :
    (∃ f, entryAt s.main.entries m.id = some f ∧ Payment.fromFields f = .ok m.payment) ∧
      (∀ e ∈ m.rest, entryAt s.main.entries e.1 = some e.2) ∧
      ((stage = .skipAck ∨ stage = .ack) → m.payment.paymentId ∈ s.processed) := by
  simpa only [Consumer.Faithful, hpc] using h

theorem Consumer.faithful_of_pc {k k' : Consumer} {s : Server} {m : Held} {stage stage' : Stage}
    (h : k.Faithful s) (hpc : k.pc = .busy m stage) (hpc' : k'.pc = .busy m stage')
    (hst : (stage' = .skipAck ∨ stage' = .ack) → m.payment.paymentId ∈ s.processed) :
    k'.Faithful s := by
  obtain ⟨hm, hrest, _⟩ := h.busy hpc
  simp only [Consumer.Faithful, hpc']
  exact ⟨hm, hrest, hst⟩

theorem Move.le {c : String} {k k' : Consumer} {s s' : Server} {evs : List Event}
    (h : Move c k s k' s' evs) : s.Le s' := by
  cases h with
  | mark m hpc => exact ⟨fun _ _ h => h, Finset.subset_insert _ _, fun _ h => h⟩
  | dlqAdd m reason attempt hpc =>
    exact ⟨fun _ _ h => h, fun _ h => h, List.subset_append_left _ _⟩
  | _ => exact ⟨fun _ _ h => h, fun _ h => h, fun _ h => h⟩

theorem Move.faithful {c : String} {k k' : Consumer} {s s' : Server} {evs : List Event}
    (h : Move c k s k' s' evs) (hf : k.Faithful s) : k'.Faithful s' := by
  cases h with
  | readNew hpc hne =>
    exact k.faithful_forBatch GroupStream.entryAt_of_mem_newBatch
  | noNew hpc hnil => trivial
  | readPending hpc hne =>
    exact k.faithful_forBatch fun e he => (GroupStream.mem_pendingBatch.mp he).2
  | noPending hpc hnil => trivial
  | wake hpc => trivial
  | hit m hpc hp => exact Consumer.faithful_of_pc hf hpc rfl fun _ => hp
  | miss m hpc hp => exact Consumer.faithful_of_pc hf hpc rfl (by simp)
  | skip m hpc => exact k.faithful_forBatch (hf.busy hpc).2.1
  | returns m hpc => exact Consumer.faithful_of_pc hf hpc rfl (by simp)
  | retry m exc hpc hlt => exact Consumer.faithful_forBatch _ (hf.busy hpc).2.1
  | exhaust m exc hpc hge => exact Consumer.faithful_of_pc hf hpc rfl (by simp)
  | mark m hpc =>
    have hle : s.Le (s.markProcessed m.payment.paymentId) :=
      ⟨fun _ _ h => h, Finset.subset_insert _ _, fun _ h => h⟩
    exact Consumer.faithful_of_pc (hf.mono hle) hpc rfl fun _ => Finset.mem_insert_self _ _
  | ack m hpc => exact Consumer.faithful_forBatch _ (hf.busy hpc).2.1
  | dlqAck m reason attempt hpc =>
    have hle : s.Le (s.moveToDlqAck m.id) := ⟨fun _ _ h => h, fun _ h => h, fun _ h => h⟩
    exact Consumer.faithful_of_pc (hf.mono hle) hpc rfl (by simp)
  | dlqAdd m reason attempt hpc => exact Consumer.faithful_forBatch _ (hf.busy hpc).2.1

theorem Move.undelivered {c : String} {k k' : Consumer} {s s' : Server} {evs : List Event}
    (h : Move c k s k' s' evs) {id : ℕ} (hid : s.main.delivered < id) :
    s'.main.delivered < id ∨ s'.main.owner? id = some c := by
  have hread (d : ℕ) : (s.readNew c d).2.main.delivered < id ∨
      (s.readNew c d).2.main.owner? id = some c := by
    by_cases hle : id ≤ s.main.delivered + s.main.newCount d
    · refine Or.inr ?_
      change (s.main.readNew c () d).owner? id = some c
      rw [GroupStream.owner?_readNew, if_pos ⟨hid, hle⟩]
    · exact Or.inl (not_le.mp hle)
  cases h with
  | readNew hpc hne => exact hread _
  | noNew hpc hnil => exact hread _
  | _ => exact Or.inl hid

theorem Move.pending {c : String} {k k' : Consumer} {s s' : Server} {evs : List Event}
    (h : Move c k s k' s' evs) {id : ℕ} {d : String} (hid : s.main.owner? id = some d) :
    s'.main.owner? id = some d ∨ ∃ m stage, k.pc = .busy m stage ∧ m.id = id ∧
      (stage = .skipAck ∨ stage = .ack ∨
        ∃ reason attempt, stage = .dlqAck reason attempt ∧
          k'.pc = .busy m (.dlqAdd reason attempt)) := by
  have hread (n : ℕ) : (s.readNew c n).2.main.owner? id = some d := by
    have hr := GroupStream.owner?_some_range hid
    change (s.main.readNew c () n).owner? id = some d
    rw [GroupStream.owner?_readNew, if_neg (by omega), hid]
  have hpend (n : ℕ) : (s.readPending c n).2.main.owner? id = some d := by
    change (s.main.readPending c () n).owner? id = some d
    rw [GroupStream.owner?_readPending, hid]
  have hack (i : ℕ) : (s.ack i).main.owner? id = some d ∨ i = id := by
    by_cases hi : id = i
    · exact Or.inr hi.symm
    · refine Or.inl ?_
      change (s.main.xack i).owner? id = some d
      rw [GroupStream.owner?_xack, if_neg hi, hid]
  cases h with
  | readNew hpc hne => exact Or.inl (hread _)
  | noNew hpc hnil => exact Or.inl (hread _)
  | readPending hpc hne => exact Or.inl (hpend _)
  | noPending hpc hnil => exact Or.inl (hpend _)
  | skip m hpc => exact (hack m.id).imp_right fun hi => ⟨m, _, hpc, hi, Or.inl rfl⟩
  | ack m hpc => exact (hack m.id).imp_right fun hi => ⟨m, _, hpc, hi, Or.inr (Or.inl rfl)⟩
  | dlqAck m reason attempt hpc =>
    exact (hack m.id).imp_right fun hi => ⟨m, _, hpc, hi, Or.inr (Or.inr ⟨reason, attempt, rfl, rfl⟩)⟩
  | _ => exact Or.inl hid

namespace World

/-- The consumer `c` stands between the two commands of `move_to_dlq` for the entry `id`. -/
def MidMove (w : World) (id : ℕ) : Prop :=
  ∃ c k m reason attempt, w.consumers c = some k ∧ k.pc = .busy m (.dlqAdd reason attempt) ∧
    m.id = id

/-- Where the documentation says a published entry can be. -/
def Accounted (w : World) (id : ℕ) (f : Fields) : Prop :=
  w.server.main.delivered < id ∨ (∃ c, w.server.main.owner? id = some c) ∨
    (∃ p, Payment.fromFields f = .ok p ∧ p.paymentId ∈ w.server.processed) ∨
    ∃ p, Payment.fromFields f = .ok p ∧ ∃ g ∈ w.server.dlq, Payment.fromFields g = .ok p

/-- An entry whose move to the dead-letter stream is, or was cut, between its two commands. -/
def BetweenAckAndAdd (w : World) (id : ℕ) : Prop :=
  w.MidMove id ∨ ∃ c p, Event.lost c id p ∈ w.trace

structure AccountInv (w : World) : Prop where
  faithful : ∀ c k, w.consumers c = some k → k.Faithful w.server
  accounted : ∀ id f, entryAt w.server.main.entries id = some f →
    w.Accounted id f ∨ w.BetweenAckAndAdd id

theorem accountInv_init : AccountInv {} where
  faithful c k h := by cases h
  accounted id f h := by
    cases id with
    | zero => cases h
    | succ n => simp [GroupStream.empty, entryAt] at h

theorem MidMove.cases {w : World} {id : ℕ} (h : w.MidMove id) (c : String) (ko : Option Consumer) :
    (w.setConsumer c ko).MidMove id ∨ ∃ k m reason attempt, w.consumers c = some k ∧
      k.pc = .busy m (.dlqAdd reason attempt) ∧ m.id = id := by
  obtain ⟨d, k, m, reason, attempt, hk, hpc, hid⟩ := h
  by_cases hd : d = c
  · subst hd
    exact Or.inr ⟨k, m, reason, attempt, hk, hpc, hid⟩
  · exact Or.inl ⟨d, k, m, reason, attempt, (w.setConsumer_of_ne hd ko).trans hk, hpc, hid⟩

theorem faithful_setConsumer {w : World} {s' : Server}
    (h : ∀ d k, w.consumers d = some k → k.Faithful s') (c : String) {ko : Option Consumer}
    (hko : ∀ k, ko = some k → k.Faithful s') :
    ∀ d k, (w.setConsumer c ko).consumers d = some k → k.Faithful s' := by
  intro d k hk
  by_cases hd : d = c
  · subst hd
    exact hko k ((w.setConsumer_self d ko).symm.trans hk)
  · exact h d k ((w.setConsumer_of_ne hd ko).symm.trans hk)

theorem Accounted.of_le {w w' : World} {id : ℕ} {f : Fields} (h : w.Accounted id f)
    (hd : w'.server.main.delivered = w.server.main.delivered)
    (ho : w'.server.main.owner? id = w.server.main.owner? id)
    (hp : w.server.processed ⊆ w'.server.processed) (hq : w.server.dlq ⊆ w'.server.dlq) :
    w'.Accounted id f := by
  rcases h with h | ⟨c, h⟩ | ⟨p, h, hm⟩ | ⟨p, h, g, hg, hgp⟩
  · exact Or.inl (hd ▸ h)
  · exact Or.inr (Or.inl ⟨c, ho ▸ h⟩)
  · exact Or.inr (Or.inr (Or.inl ⟨p, h, hp hm⟩))
  · exact Or.inr (Or.inr (Or.inr ⟨p, h, g, hq hg, hgp⟩))

theorem accountInv_append {w w' : World} (hi : AccountInv w) (g : Fields)
    (hm : w'.server.main = w.server.main.xadd g) (hp : w'.server.processed = w.server.processed)
    (hq : w'.server.dlq = w.server.dlq) (hc : w'.consumers = w.consumers)
    (ht : w'.trace = w.trace) : AccountInv w' where
  faithful c k hk := by
    refine (hi.faithful c k (hc ▸ hk)).mono ?_
    have hle := Server.Le.xadd w.server g
    exact ⟨fun id f h => by rw [hm]; exact hle.entries id f h, hp ▸ fun _ h => h,
      hq ▸ fun _ h => h⟩
  accounted id f h := by
    by_cases hid : id ≤ w.server.main.entries.length
    · rw [hm] at h
      change entryAt (w.server.main.entries ++ [g]) id = some f at h
      rw [entryAt_append_of_le hid] at h
      rcases hi.accounted id f h with h' | ⟨d, k, m, r, a, hk, hpc⟩ | ⟨d, p, hl⟩
      · exact Or.inl (h'.of_le (by rw [hm]; rfl) (by rw [hm]; rfl) (hp ▸ fun _ h => h)
          (hq ▸ fun _ h => h))
      · exact Or.inr (Or.inl ⟨d, k, m, r, a, hc ▸ hk, hpc⟩)
      · exact Or.inr (Or.inr ⟨d, p, ht ▸ hl⟩)
    · refine Or.inl (Or.inl ?_)
      rw [hm]
      exact w.server.main.delivered_le.trans_lt (not_le.mp hid)

theorem accountInv_move {w : World} {c : String} {k k' : Consumer} {s' : Server}
    {evs : List Event} (hi : AccountInv w) (hk : w.consumers c = some k)
    (hm : Move c k w.server k' s' evs) :
    AccountInv (w.moved c k' s' evs) where
  faithful := by
    have hf : ∀ d l, w.consumers d = some l → l.Faithful s' := fun d l hl =>
      (hi.faithful d l hl).mono hm.le
    exact faithful_setConsumer hf c fun l hl => by
      cases hl
      exact hm.faithful (hi.faithful c k hk)
  accounted id f h := by
    have hent : s'.main.entries = w.server.main.entries := by cases hm <;> rfl
    have hentry : entryAt w.server.main.entries id = some f := by
      change entryAt s'.main.entries id = some f at h
      rwa [hent] at h
    have hle := hm.le
    rcases hi.accounted id f hentry with
      (hu | ⟨d, ho⟩ | ⟨p, hp, hmem⟩ | ⟨p, hp, g, hg, hgp⟩) | (hmid | ⟨d, p, hl⟩)
    · rcases hm.undelivered hu with hu' | ho'
      · exact Or.inl (Or.inl hu')
      · exact Or.inl (Or.inr (Or.inl ⟨c, ho'⟩))
    · rcases hm.pending ho with ho' | ⟨m, stage, hpc, rfl, hst⟩
      · exact Or.inl (Or.inr (Or.inl ⟨d, ho'⟩))
      · obtain ⟨⟨g, hg, hgp⟩, _, hproc⟩ := (hi.faithful c k hk).busy hpc
        obtain rfl := Option.some.inj (hentry.symm.trans hg)
        rcases hst with rfl | rfl | ⟨reason, attempt, rfl, hpc'⟩
        · exact Or.inl (Or.inr (Or.inr (Or.inl ⟨_, hgp, hle.processed (hproc (Or.inl rfl))⟩)))
        · exact Or.inl (Or.inr (Or.inr (Or.inl ⟨_, hgp, hle.processed (hproc (Or.inr rfl))⟩)))
        · exact Or.inr (Or.inl ⟨c, k', m, reason, attempt, w.setConsumer_self c _, hpc', rfl⟩)
    · exact Or.inl (Or.inr (Or.inr (Or.inl ⟨p, hp, hle.processed hmem⟩)))
    · exact Or.inl (Or.inr (Or.inr (Or.inr ⟨p, hp, g, hle.dlq hg, hgp⟩)))
    · rcases hmid.cases c (some k') with hmid' | ⟨l, m, reason, attempt, hl, hpc, rfl⟩
      · exact Or.inr (Or.inl hmid')
      · obtain rfl := Option.some.inj (hk.symm.trans hl)
        obtain ⟨⟨g, hg, hgp⟩, _⟩ := (hi.faithful c k hk).busy hpc
        obtain rfl := Option.some.inj (hentry.symm.trans hg)
        cases hm with
        | dlqAdd m' reason' attempt' hpc' =>
          obtain ⟨rfl, -⟩ := Pc.busy.inj (hpc.symm.trans hpc')
          exact Or.inl (Or.inr (Or.inr (Or.inr ⟨_, hgp, _, List.mem_append_right _ List.mem_cons_self,
            m.payment.fromFields_dlqFields _ _⟩)))
        | _ => simp_all
    · exact Or.inr (Or.inr ⟨d, p, List.mem_append_left _ hl⟩)

theorem accountInv_step (w : World) (a : Action) (w' : World) (hi : AccountInv w)
    (h : step w a = some w') : AccountInv w' := by
  cases Effect.of_step h with
  | publish p => exact accountInv_append hi _ rfl rfl rfl rfl rfl
  | xadd f => exact accountInv_append hi f rfl rfl rfl rfl rfl
  | start c maxAttempts count hend =>
    refine ⟨faithful_setConsumer hi.faithful c fun k hk => by cases hk; trivial, fun id f hf => ?_⟩
    rcases hi.accounted id f hf with h' | hmid | hl
    · exact Or.inl h'
    · refine Or.inr ((hmid.cases c _).imp_right ?_)
      rintro ⟨k, m, reason, attempt, hk, hpc, -⟩
      have := hend k hk
      simp [Consumer.ended, hpc] at this
    · exact Or.inr (Or.inr hl)
  | stop c k hk hpc =>
    refine ⟨faithful_setConsumer hi.faithful c fun k hk => by cases hk; trivial, fun id f hf => ?_⟩
    rcases hi.accounted id f hf with h' | hmid | hl
    · exact Or.inl h'
    · refine Or.inr ((hmid.cases c _).imp_right ?_)
      rintro ⟨l, m, reason, attempt, hl, hpc', -⟩
      obtain rfl := Option.some.inj (hk.symm.trans hl)
      rw [hpc] at hpc'
      cases hpc'
    · exact Or.inr (Or.inr hl)
  | move _ c k k' s' evs _ hk hm => exact accountInv_move hi hk hm
  | crash c k hk hend =>
    refine ⟨faithful_setConsumer hi.faithful c fun k hk => (by cases hk), fun id f hf => ?_⟩
    rcases hi.accounted id f hf with h' | hmid | ⟨d, p, hl⟩
    · exact Or.inl h'
    · refine Or.inr ((hmid.cases c _).imp_right ?_)
      rintro ⟨l, m, reason, attempt, hl, hpc, rfl⟩
      obtain rfl := Option.some.inj (hk.symm.trans hl)
      exact ⟨c, m.payment, List.mem_append_right _ (by simp [crashEvents, hpc])⟩
    · exact Or.inr (Or.inr ⟨d, p, List.mem_append_left _ hl⟩)

/-- In every reachable state, whatever was published and wherever consumers crashed, an entry of
the main stream is accounted for unless its move is, or was cut, between its two commands. -/
theorem published_accounted_or_between (acts : List Action) (w : World)
    (hrun : ActionRun.run step {} acts = some w) (id : ℕ) (f : Fields)
    (hpub : entryAt w.server.main.entries id = some f) :
    w.Accounted id f ∨ w.BetweenAckAndAdd id :=
  (ActionRun.run_invariant_of_step accountInv_step accountInv_init hrun).accounted id f hpub

def coffee : Payment := ⟨"pay-1", 250, "cust-1", "USD"⟩

/-- A handler failure exhausts the budget of one attempt, and the process dies inside
`move_to_dlq`. -/
def cutMove : List Action :=
  [.publish coffee, .start "c" 1 10, .run "c", .run "c",
    .handler "c" (some ⟨"PaymentError", "declined"⟩), .run "c", .crash "c"]

theorem cutMove_unaccounted :
    ∃ w, ActionRun.run step {} cutMove = some w ∧
      entryAt w.server.main.entries 1 = some (encodeFields coffee.toFields) ∧
      ¬ w.Accounted 1 (encodeFields coffee.toFields) := by
  refine ⟨_, rfl, rfl, ?_⟩
  rintro (h | ⟨c, h⟩ | ⟨p, _, h⟩ | ⟨p, _, g, h, _⟩)
  · exact absurd h (by decide +kernel)
  · cases h
  · cases h
  · cases h

theorem cutMove_lost_or_between :
    ∃ w, ActionRun.run step {} cutMove = some w ∧
      (w.Accounted 1 (encodeFields coffee.toFields) ∨ w.BetweenAckAndAdd 1) :=
  ⟨_, rfl, published_accounted_or_between cutMove _ rfl 1 _ rfl⟩

end World
end Dlq
