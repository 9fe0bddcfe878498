import MessageBrokerPatterns.OutboxDelivery
import MessageBrokerPatterns.Stutter

/-!
# The relayed stream is the commit order with local stutter

At most one relay is alive at a time. The committed orders form a line: the relay shows the first
waiting order on the stream, and its delete settles it. A relay that ends between the two leaves the
order at the head of the line, where the next relay finds it again. Only these ends make an event
appear more than once.
-/

namespace Outbox
open PyText PyDict ActionRun Stutter
variable {F : Type}

namespace Relay

theorem entries_of_unsettled {k : Relay} {entry : OutboxEntry} (h : k.unsettled = some entry) :
    ∃ rest, k.entries = entry :: rest := by
  unfold unsettled at h
  split at h
  · rename_i e rest hpc
    cases h
    exact ⟨rest, by simp only [entries, hpc]⟩
  · cases h

theorem idle_of_ended {k : Relay} (h : k.ended = true) : k.unsettled = none ∧ k.entries = [] := by
  unfold ended at h
  split at h
  · rename_i hpc
    simp only [unsettled, entries, hpc, and_self]
  · rename_i hpc
    simp only [unsettled, entries, hpc, and_self]
  · rename_i hpc
    simp only [unsettled, entries, hpc, and_self]
  · cases h

end Relay

namespace World

/-- The relay is the only one that may be alive. -/
def Lone (w : World F) (k : Relay) : Prop :=
  (∃ i, w.relays i = some k ∧ ∀ j m, w.relays j = some m → m.ended = false → j = i) ∨
    k.unsettled = none ∧ k.entries = [] ∧ ∀ j m, w.relays j = some m → m.ended = true

theorem Lone.update {w w' : World F} {k k₀ k' : Relay} {i : ℕ} (h : Lone w k₀)
    (hk : w.relays i = some k) (hlive : k.ended = false)
    (hrelays : w'.relays = Function.update w.relays i (some k')) : k₀ = k ∧ Lone w' k' := by
  rcases h with ⟨j, hj, hall⟩ | ⟨-, -, hall⟩
  · obtain rfl := hall i k hk hlive
    refine ⟨Option.some.inj (hj.symm.trans hk), Or.inl ⟨i, ?_, fun j m hm hml => ?_⟩⟩
    · rw [hrelays, Function.update_self]
    · by_contra hne
      rw [hrelays, Function.update_of_ne hne] at hm
      exact hne (hall j m hm hml)
  · rw [hall i k hk] at hlive
    cases hlive

theorem Lone.stop {w w' : World F} {k k₀ : Relay} {i : ℕ} (h : Lone w k₀)
    (hk : w.relays i = some k)
    (hrelays : w'.relays = Function.update w.relays i (some { k with stopEvent := true })) :
    ∃ k', k'.pc = k₀.pc ∧ Lone w' k' := by
  have hother {j : ℕ} {m : Relay} (hm : w'.relays j = some m) :
      ∃ m', w.relays j = some m' ∧ m'.ended = m.ended := by
    rw [hrelays] at hm
    rcases Slots.cases_update hm with ⟨rfl, rfl⟩ | ⟨-, hm⟩
    · exact ⟨k, hk, rfl⟩
    · exact ⟨m, hm, rfl⟩
  rcases h with ⟨j, hj, hall⟩ | ⟨hun, hent, hall⟩
  · have hrest : ∀ n m, w'.relays n = some m → m.ended = false → n = j := by
      intro n m hm hml
      obtain ⟨m', hm', he⟩ := hother hm
      exact hall n m' hm' (he.trans hml)
    by_cases hji : j = i
    · subst hji
      obtain rfl := Option.some.inj (hj.symm.trans hk)
      refine ⟨{ k₀ with stopEvent := true }, rfl, Or.inl ⟨j, ?_, hrest⟩⟩
      rw [hrelays, Function.update_self]
    · refine ⟨k₀, rfl, Or.inl ⟨j, ?_, hrest⟩⟩
      rw [hrelays, Function.update_of_ne hji, hj]
  · refine ⟨k₀, rfl, Or.inr ⟨hun, hent, fun n m hm => ?_⟩⟩
    obtain ⟨m', hm', he⟩ := hother hm
    exact he.symm.trans (hall n m' hm')

end World

variable [PyJson F]

namespace Relay

theorem unsettled_forEntries (k : Relay) (page : List OutboxEntry) :
    (k.forEntries F page).unsettled = none := by
  cases page with
  | nil => rfl
  | cons entry rest =>
    simp only [forEntries]
    cases entryFields F entry with
    | ok payload => rfl
    | error exc => rfl

theorem entries_forEntries_prefix (k : Relay) (page : List OutboxEntry) :
    (k.forEntries F page).entries <+: page := by
  cases page with
  | nil => exact List.prefix_rfl
  | cons entry rest =>
    simp only [forEntries]
    cases entryFields F entry with
    | ok payload => exact List.prefix_rfl
    | error exc => exact List.nil_prefix

end Relay

theorem Move.live {k k' : Relay} {db db' : Tables F} {stream stream' : List Fields}
    (h : Move k db stream k' db' stream') : k.ended = false := by
  cases h with
  | stopped hpc hstop => simp only [Relay.ended, hpc]
  | polled hpc hstop => simp only [Relay.ended, hpc]
  | published entry payload rest hpc => simp only [Relay.ended, hpc]
  | deleted entry rest entryId hpc hid => simp only [Relay.ended, hpc]
  | unnumbered entry rest hpc hid => simp only [Relay.ended, hpc]
  | wake hpc => simp only [Relay.ended, hpc]

/-- An order with the entry that `insert_order_with_outbox` returned for it. -/
abbrev Commit (F : Type) := Order F × OutboxEntry

def commitEvent (p : Commit F) : Fields := encodeFields (orderCreatedEvent p.1)

namespace World

/-- The commits are the rows of `orders` in their order, and the ids of their entries grow. -/
structure CommitInv (w : World F) : Prop where
  orders : w.committed.map Prod.fst = w.db.orders
  recorded : ∀ p ∈ w.committed, RoundTrips p.1 ∧
    ∃ r : OutboxRow, p.2 = r.toEntry ∧ r.Records p.1 ∧ r.id ≤ w.db.lastId
  increasing : w.committed.Pairwise fun p q =>
    ∃ m n, p.2.id = some m ∧ q.2.id = some n ∧ m < n

theorem commits_of_step {w w' : World F} {a : Action F} (h : step w a = some w') :
    (∃ t, w.tx = some t ∧ t.entry.id ≠ none ∧
      w' = { w.closed [.inserted t.order t.entry] with db := t.working }) ∨
    w'.committed = w.committed ∧ w'.db.orders = w.db.orders ∧ w'.db.lastId = w.db.lastId := by
  cases Effect.of_step h with
  | insertOrder order now working htx hins => exact Or.inr ⟨rfl, rfl, rfl⟩
  | duplicate order now exc htx hins => exact Or.inr ⟨by simp [committed, Event.commit?], rfl, rfl⟩
  | insertOutbox t htx hid => exact Or.inr ⟨rfl, rfl, rfl⟩
  | commit t htx hid => exact Or.inl ⟨t, htx, hid, rfl⟩
  | refuse order exc => exact Or.inr ⟨by simp [committed, Event.commit?], rfl, rfl⟩
  | rollBack t exc htx => exact Or.inr ⟨by simp [committed_closed, Event.commit?], rfl, rfl⟩
  | crashWriter t htx => exact Or.inr ⟨by simp [committed_closed], rfl, rfl⟩
  | startRelay i hnone => exact Or.inr ⟨rfl, rfl, rfl⟩
  | stopRelay i k hk => exact Or.inr ⟨rfl, rfl, rfl⟩
  | relay i k k' db stream hk hfree hm =>
    apply Or.inr
    cases hm with
    | deleted entry rest entryId hpc hid => exact ⟨rfl, rfl, rfl⟩
    | stopped hpc hstop => exact ⟨rfl, rfl, rfl⟩
    | polled hpc hstop => exact ⟨rfl, rfl, rfl⟩
    | published entry payload rest hpc => exact ⟨rfl, rfl, rfl⟩
    | unnumbered entry rest hpc hid => exact ⟨rfl, rfl, rfl⟩
    | wake hpc => exact ⟨rfl, rfl, rfl⟩
  | raises i k exc hk hlive => exact Or.inr ⟨committed_endRelay _ _ _ _, rfl, rfl⟩
  | loseReply i k entry payload rest exc hk hpc =>
    exact Or.inr ⟨w.committed_endRelay i { k with pc := .delete entry rest } (.raised exc), rfl, rfl⟩
  | crashRelay i k hk hlive => exact Or.inr ⟨committed_endRelay _ _ _ _, rfl, rfl⟩

theorem commitInv_init : CommitInv ({} : World F) where
  orders := rfl
  recorded p hp := by cases hp
  increasing := List.Pairwise.nil

theorem commitInv_commit {w : World F} (hc : CommitInv w) {t : Transaction F}
    (ht : t.Extends w.db) (hid : t.entry.id ≠ none) :
    CommitInv { w.closed [.inserted t.order t.entry] with db := t.working } := by
  obtain ⟨r, hr, hrec, hlast, -, hl⟩ := ht.row hid
  have hgrow : (w.closed [.inserted t.order t.entry]).committed =
      w.committed ++ [(t.order, t.entry)] := w.committed_closed _
  have hmem {p : Commit F} (hp : p ∈ (w.closed [.inserted t.order t.entry]).committed) :
      p ∈ w.committed ∨ p = (t.order, t.entry) := by
    rw [hgrow] at hp
    exact (List.mem_append.mp hp).imp_right List.mem_singleton.mp
  constructor
  · change (w.closed _).committed.map Prod.fst = t.working.orders
    rw [hgrow, List.map_append, hc.orders, ht.orders]
    rfl
  · intro p hp
    change RoundTrips p.1 ∧ ∃ r : OutboxRow, p.2 = r.toEntry ∧ r.Records p.1 ∧
      r.id ≤ t.working.lastId
    rcases hmem hp with hp | rfl
    · obtain ⟨hjson, q, hq, hqrec, hqid⟩ := hc.recorded p hp
      exact ⟨hjson, q, hq, hqrec, by omega⟩
    · exact ⟨ht.roundTrips, r, hr, hrec, by omega⟩
  · change (w.closed _).committed.Pairwise _
    rw [hgrow, List.pairwise_append]
    refine ⟨hc.increasing, List.pairwise_singleton _ _, fun p hp q hq => ?_⟩
    obtain rfl := List.mem_singleton.mp hq
    obtain ⟨-, s, hs, -, hsid⟩ := hc.recorded p hp
    refine ⟨s.id, r.id, ?_, ?_, by omega⟩
    · rw [hs]
      rfl
    · change t.entry.id = some r.id
      rw [hr]
      rfl

theorem commitInv_step {w w' : World F} {a : Action F} (hi : DeliveryInv w) (hc : CommitInv w)
    (h : step w a = some w') : CommitInv w' := by
  rcases commits_of_step h with ⟨t, htx, hid, rfl⟩ | ⟨hcom, ho, hl⟩
  · exact commitInv_commit hc (hi.tx t htx) hid
  · constructor
    · rw [hcom, ho]
      exact hc.orders
    · rw [hcom, hl]
      exact hc.recorded
    · rw [hcom]
      exact hc.increasing

/-- The line of the commits, as the stream and the table show it while one relay works on it. -/
structure Stage (w : World F) (l : Line (Commit F)) (k : Relay) : Prop where
  items : l.items = w.committed
  waiting : l.waiting.map Prod.snd = w.db.outbox.map OutboxRow.toEntry
  stream : w.stream = l.output commitEvent
  done : ∀ b ∈ l.done, b.2 ≤ w.cuts b.1.2 + 1
  page : k.entries <+: l.waiting.map Prod.snd
  sent : k.unsettled ≠ none → 1 ≤ l.copies
  head : ∀ p ∈ l.waiting.head?, l.copies ≤ w.cuts p.2 + if k.unsettled = none then 0 else 1

theorem Stage.front {w : World F} {l : Line (Commit F)} {k : Relay} (h : Stage w l k)
    {entry : OutboxEntry} {rest : List OutboxEntry} (he : k.entries = entry :: rest) :
    ∃ p ps, l.waiting = p :: ps ∧ p.2 = entry ∧ rest <+: ps.map Prod.snd ∧ p ∈ w.committed := by
  have hp := h.page
  rw [he] at hp
  cases hw : l.waiting with
  | nil =>
    rw [hw] at hp
    exact absurd (List.prefix_nil.mp hp) (List.cons_ne_nil _ _)
  | cons p ps =>
    rw [hw, List.map_cons, List.cons_prefix_cons] at hp
    refine ⟨p, ps, rfl, hp.1.symm, hp.2, ?_⟩
    rw [← h.items, Line.items, hw]
    exact List.mem_append_right _ List.mem_cons_self

/-- The step touches neither the line nor the relay. -/
theorem Stage.frame {w w' : World F} {l : Line (Commit F)} {k : Relay} (h : Stage w l k)
    (hcom : w'.committed = w.committed) (hdb : w'.db = w.db) (hstream : w'.stream = w.stream)
    (hcuts : w'.cuts = w.cuts) : Stage w' l k where
  items := h.items.trans hcom.symm
  waiting := by rw [h.waiting, hdb]
  stream := hstream.trans h.stream
  done := by
    rw [hcuts]
    exact h.done
  page := h.page
  sent := h.sent
  head := by
    rw [hcuts]
    exact h.head

theorem Stage.turn {w : World F} {l : Line (Commit F)} {k k' : Relay} (h : Stage w l k)
    (hun : k.unsettled = none) (hun' : k'.unsettled = none)
    (hpage : k'.entries <+: w.db.outbox.map OutboxRow.toEntry) : Stage w l k' where
  items := h.items
  waiting := h.waiting
  stream := h.stream
  done := h.done
  page := by
    rw [h.waiting]
    exact hpage
  sent hne := absurd hun' hne
  head := by
    have hh := h.head
    rw [if_pos hun] at hh
    rwa [if_pos hun']

theorem Stage.commit {w : World F} {l : Line (Commit F)} {k : Relay} (h : Stage w l k)
    {t : Transaction F} (ht : t.Extends w.db) (hid : t.entry.id ≠ none) :
    Stage { w.closed [.inserted t.order t.entry] with db := t.working }
      (l.arrive (t.order, t.entry)) k := by
  obtain ⟨r, hr, -, -, hx, -⟩ := ht.row hid
  have hcuts (entry : OutboxEntry) :
      (w.closed [.inserted t.order t.entry]).cuts entry = w.cuts entry := by
    simp [cuts, closed, Event.cuts]
  constructor
  · rw [Line.items_arrive, h.items]
    exact (w.committed_closed [.inserted t.order t.entry]).symm
  · change (l.waiting ++ [(t.order, t.entry)]).map Prod.snd = t.working.outbox.map OutboxRow.toEntry
    rw [hx, List.map_append, List.map_append, h.waiting, hr]
    rfl
  · rw [Line.output_arrive]
    exact h.stream
  · intro b hb
    change b.2 ≤ (w.closed _).cuts b.1.2 + 1
    rw [hcuts]
    exact h.done b hb
  · exact h.page.trans (by
      rw [Line.arrive, List.map_append]
      exact List.prefix_append _ _)
  · exact h.sent
  · intro p hp
    change l.copies ≤ (w.closed _).cuts p.2 + _
    rw [hcuts]
    cases hw : l.waiting with
    | nil =>
      rw [l.idle hw]
      exact Nat.zero_le _
    | cons q qs =>
      apply h.head
      change p ∈ (l.waiting ++ [(t.order, t.entry)]).head? at hp
      rw [hw] at hp ⊢
      exact hp

/-- The `XADD` shows the first waiting order once more. -/
theorem Stage.emit {w : World F} {l : Line (Commit F)} {k : Relay} (h : Stage w l k)
    (hi : DeliveryInv w) (hc : CommitInv w) {i : ℕ} (hk : w.relays i = some k)
    {entry : OutboxEntry} {payload : Dict String String} {rest : List OutboxEntry}
    (hpc : k.pc = .publish entry payload rest) :
    ∃ l', Stage { w with stream := w.stream ++ [encodeFields payload] } l'
      { k with pc := .delete entry rest } := by
  have he : k.entries = entry :: rest := by simp only [Relay.entries, hpc]
  obtain ⟨p, ps, hw, hpe, -, hmem⟩ := h.front he
  obtain ⟨hjson, r, hr, hrec, -⟩ := hc.recorded p hmem
  have hpay : payload = orderCreatedEvent p.1 := by
    have hp := (hi.relays i k hk).payload entry payload rest hpc
    rw [← hpe, hr, hrec.entryFields hjson] at hp
    exact (Except.ok.inj hp).symm
  have hne : l.waiting ≠ [] := by
    rw [hw]
    exact List.cons_ne_nil _ _
  have hun : k.unsettled = none := by simp only [Relay.unsettled, hpc]
  refine ⟨l.emit hne, h.items, h.waiting, ?_, h.done, ?_, fun _ => Nat.le_add_left _ _, ?_⟩
  · rw [Line.output_emit commitEvent hw, ← h.stream, hpay]
    rfl
  · have hpage := h.page
    rw [Relay.entries, hpc] at hpage
    exact hpage
  · intro q hq
    have hle := h.head q hq
    rw [if_pos hun] at hle
    rw [if_neg (by simp [Relay.unsettled])]
    change l.copies + 1 ≤ w.cuts q.2 + 1
    omega

/-- The `DELETE` settles the first waiting order. -/
theorem Stage.settle {w : World F} {l : Line (Commit F)} {k : Relay} (h : Stage w l k) {i : ℕ}
    {entry : OutboxEntry} {rest : List OutboxEntry} {entryId : ℕ}
    (hpc : k.pc = .delete entry rest) (hid : entry.id = some entryId) :
    ∃ l', Stage (w.moved i (k.forEntries F rest) (w.db.deleteOutboxEntry entryId) w.stream) l'
      (k.forEntries F rest) := by
  have hun : k.unsettled = some entry := by simp only [Relay.unsettled, hpc]
  have hpos : 1 ≤ l.copies := h.sent (by rw [hun]; simp)
  have he : k.entries = entry :: rest := by simp only [Relay.entries, hpc]
  obtain ⟨p, ps, hw, hpe, hrest, -⟩ := h.front he
  obtain ⟨r, rs, hrows, hr, hrs⟩ : ∃ r rs, w.db.outbox = r :: rs ∧ p.2 = r.toEntry ∧
      ps.map Prod.snd = rs.map OutboxRow.toEntry := by
    have hwait := h.waiting
    rw [hw] at hwait
    cases ho : w.db.outbox with
    | nil =>
      rw [ho] at hwait
      cases hwait
    | cons r rs =>
      rw [ho, List.map_cons, List.map_cons, List.cons.injEq] at hwait
      exact ⟨r, rs, rfl, hwait.1, hwait.2⟩
  have hrid : r.id = entryId := by
    rw [← hpe, hr] at hid
    exact Option.some.inj hid
  subst hrid
  refine ⟨l.settle hpos, (Line.items_settle hpos).trans h.items, ?_, ?_, ?_, ?_, ?_, ?_⟩
  · change l.waiting.tail.map Prod.snd = (w.db.deleteOutboxEntry r.id).outbox.map _
    rw [Tables.outbox_deleteOutboxEntry_head hrows, hw]
    exact hrs
  · rw [Line.output_settle]
    exact h.stream
  · intro b hb
    rcases List.mem_append.mp hb with hb | hb
    · exact h.done b hb
    · obtain ⟨hcopies, hhead⟩ := l.eq_copies_of_mem_head hb
      have hle := h.head b.1 hhead
      rw [hun, if_neg (by simp)] at hle
      rw [hcopies]
      exact hle
  · change (k.forEntries F rest).entries <+: l.waiting.tail.map Prod.snd
    rw [hw]
    exact (k.entries_forEntries_prefix rest).trans hrest
  · intro hne
    exact absurd (k.unsettled_forEntries rest) hne
  · intro q hq
    exact Nat.zero_le _

/-- When a relay ends, an entry without its `DELETE` has been cut off. -/
theorem Stage.endRelay {w : World F} {l : Line (Commit F)} {k : Relay} (h : Stage w l k) (i : ℕ)
    {pc : Pc} (hend : Relay.ended { k with pc } = true) :
    Stage (w.endRelay i k pc) l { k with pc } := by
  have hquiet := Relay.idle_of_ended hend
  refine ⟨h.items.trans (w.committed_endRelay i k pc).symm, h.waiting, h.stream, ?_, ?_, ?_, ?_⟩
  · intro b hb
    have hle := h.done b hb
    rw [cuts_endRelay]
    omega
  · rw [hquiet.2]
    exact List.nil_prefix
  · intro hne
    exact absurd hquiet.1 hne
  · intro p hp
    have hle := h.head p hp
    rw [if_pos hquiet.1, cuts_endRelay]
    cases hun : k.unsettled with
    | none =>
      rw [hun, if_pos rfl] at hle
      omega
    | some entry =>
      obtain ⟨rest, he⟩ := Relay.entries_of_unsettled hun
      obtain ⟨q, qs, hw, hqe, -, -⟩ := h.front he
      rw [hw, List.head?_cons] at hp
      obtain rfl := Option.some.inj hp
      rw [hun, if_neg (by simp)] at hle
      rw [hqe, if_pos rfl, ← hqe]
      exact hle

/-- A relay is started only when no other is alive. -/
def StartsAlone (w : World F) (a : Action F) : Prop :=
  ∀ i, a = .startRelay i → ∀ j k, w.relays j = some k → k.ended = true

structure OrderInv (w : World F) : Prop where
  delivery : DeliveryInv w
  commits : CommitInv w
  line : ∃ l k, Stage w l k ∧ Lone w k

theorem orderInv_init : OrderInv ({} : World F) where
  delivery := deliveryInv_init
  commits := commitInv_init
  line := by
    refine ⟨.empty, {}, ⟨rfl, rfl, rfl, fun b hb => ?_, List.nil_prefix, fun hne => absurd rfl hne,
      fun p hp => ?_⟩, Or.inr ⟨rfl, rfl, fun j m hm => ?_⟩⟩
    · cases hb
    · cases hp
    · cases hm

theorem line_moved {w : World F} (hi : OrderInv w) {l : Line (Commit F)} {i : ℕ} {k k' : Relay}
    {db : Tables F} {stream : List Fields} (hs : Stage w l k) (hk : w.relays i = some k)
    (hm : Move k w.db w.stream k' db stream) : ∃ l', Stage (w.moved i k' db stream) l' k' := by
  cases hm with
  | stopped hpc hstop =>
    have hs' : Stage w l { k with pc := .returned } :=
      hs.turn (by simp only [Relay.unsettled, hpc]) rfl List.nil_prefix
    exact ⟨l, hs'.frame rfl rfl rfl rfl⟩
  | polled hpc hstop =>
    have hs' : Stage w l (k.forEntries F w.db.pollOutbox) :=
      hs.turn (by simp only [Relay.unsettled, hpc]) (k.unsettled_forEntries _)
        ((k.entries_forEntries_prefix _).trans (Tables.pollOutbox_prefix 10))
    exact ⟨l, hs'.frame rfl rfl rfl rfl⟩
  | published entry payload rest hpc =>
    obtain ⟨l', hs'⟩ := hs.emit hi.delivery hi.commits hk hpc
    exact ⟨l', hs'.frame rfl rfl rfl rfl⟩
  | deleted entry rest entryId hpc hid => exact hs.settle hpc hid
  | unnumbered entry rest hpc hid =>
    obtain ⟨r, hr, -⟩ := (hi.delivery.relays i k hk).issued entry (by simp [Relay.entries, hpc])
    rw [hr] at hid
    cases hid
  | wake hpc =>
    have hs' : Stage w l { k with pc := .top } :=
      hs.turn (by simp only [Relay.unsettled, hpc]) rfl List.nil_prefix
    exact ⟨l, hs'.frame rfl rfl rfl rfl⟩

theorem line_step {w w' : World F} {a : Action F} (hi : OrderInv w) (hstart : StartsAlone w a)
    (h : step w a = some w') : ∃ l k, Stage w' l k ∧ Lone w' k := by
  obtain ⟨l, k₀, hs, hl⟩ := hi.line
  have hraised {order : Order F} {exc : PyExc} {tx : Option (Transaction F)} :
      Stage { w with tx, trace := w.trace ++ [.insertRaised order exc] } l k₀ := by
    apply hs.frame
    · simp [committed, Event.commit?]
    · rfl
    · rfl
    · funext entry
      simp [cuts, Event.cuts]
  cases Effect.of_step h with
  | insertOrder order now working htx hins => exact ⟨l, k₀, hs.frame rfl rfl rfl rfl, hl⟩
  | duplicate order now exc htx hins => exact ⟨l, k₀, hraised, hl⟩
  | insertOutbox t htx hid => exact ⟨l, k₀, hs.frame rfl rfl rfl rfl, hl⟩
  | commit t htx hid => exact ⟨_, k₀, hs.commit (hi.delivery.tx t htx) hid, hl⟩
  | refuse order exc => exact ⟨l, k₀, hraised, hl⟩
  | rollBack t exc htx => exact ⟨l, k₀, hraised, hl⟩
  | crashWriter t htx =>
    refine ⟨l, k₀, hs.frame ?_ rfl rfl ?_, hl⟩
    · rw [committed_closed, List.filterMap_nil, List.append_nil]
    · funext entry
      simp [cuts, closed]
  | startRelay i hnone =>
    have hall := hstart i rfl
    have hun : k₀.unsettled = none := by
      rcases hl with ⟨j, hj, -⟩ | ⟨hun, -⟩
      · exact (Relay.idle_of_ended (hall j k₀ hj)).1
      · exact hun
    have hs' : Stage w l {} := hs.turn hun rfl List.nil_prefix
    refine ⟨l, {}, hs'.frame rfl rfl rfl rfl, Or.inl ⟨i, setRelay_self w i {}, fun j m hm hml => ?_⟩⟩
    by_contra hne
    rw [setRelay_of_ne w hne] at hm
    rw [hall j m hm] at hml
    cases hml
  | stopRelay i k hk =>
    obtain ⟨k', hpc, hl'⟩ : ∃ k', k'.pc = k₀.pc ∧ Lone (w.setRelay i { k with stopEvent := true }) k' :=
      hl.stop hk rfl
    have hun : k'.unsettled = k₀.unsettled := by rw [Relay.unsettled, Relay.unsettled, hpc]
    have hent : k'.entries = k₀.entries := by rw [Relay.entries, Relay.entries, hpc]
    refine ⟨l, k', ⟨hs.items, hs.waiting, hs.stream, hs.done, ?_, ?_, ?_⟩, hl'⟩
    · rw [hent]
      exact hs.page
    · rw [hun]
      exact hs.sent
    · rw [hun]
      exact hs.head
  | relay i k k' db stream hk hfree hm =>
    obtain ⟨rfl, hl'⟩ : k₀ = k ∧ Lone (w.moved i k' db stream) k' := hl.update hk hm.live rfl
    obtain ⟨l', hs'⟩ := line_moved hi hs hk hm
    exact ⟨l', k', hs', hl'⟩
  | raises i k exc hk hlive =>
    obtain ⟨rfl, hl'⟩ : k₀ = k ∧ Lone (w.endRelay i k (.raised exc)) { k with pc := .raised exc } :=
      hl.update hk hlive rfl
    exact ⟨l, _, hs.endRelay i rfl, hl'⟩
  | loseReply i k entry payload rest exc hk hpc =>
    have hlive : k.ended = false := by simp only [Relay.ended, hpc]
    obtain ⟨rfl, hl'⟩ : k₀ = k ∧ Lone { w.endRelay i { k with pc := .delete entry rest }
        (.raised exc) with stream := w.stream ++ [encodeFields payload] }
        { k with pc := .raised exc } := hl.update hk hlive rfl
    obtain ⟨l', hs'⟩ := hs.emit hi.delivery hi.commits hk hpc
    exact ⟨l', _, hs'.endRelay i rfl, hl'⟩
  | crashRelay i k hk hlive =>
    obtain ⟨rfl, hl'⟩ : k₀ = k ∧ Lone (w.endRelay i k .crashed) { k with pc := .crashed } :=
      hl.update hk hlive rfl
    exact ⟨l, _, hs.endRelay i rfl, hl'⟩

theorem orderInv_step (w : World F) (a : Action F) (w' : World F) (hi : OrderInv w)
    (ha : (∀ order now, a = .insertOrder order now → RoundTrips order) ∧ StartsAlone w a)
    (h : step w a = some w') : OrderInv w' where
  delivery := deliveryInv_step w a w' hi.delivery ha.1 h
  commits := commitInv_step hi.delivery hi.commits h
  line := line_step hi ha.2 h

/-- The action ends a relay other than by its stop event. -/
def breaksRelay : Action F → Bool
  | .raises _ _ => true
  | .loseReply _ _ => true
  | .crashRelay _ => true
  | _ => false

theorem cuts_step {w w' : World F} {a : Action F} (ha : breaksRelay a = false)
    (h : step w a = some w') (entry : OutboxEntry) : w'.cuts entry = w.cuts entry := by
  cases Effect.of_step h with
  | insertOrder order now working htx hins => rfl
  | duplicate order now exc htx hins => simp [cuts, Event.cuts]
  | insertOutbox t htx hid => rfl
  | commit t htx hid => simp [cuts, closed, Event.cuts]
  | refuse order exc => simp [cuts, Event.cuts]
  | rollBack t exc htx => simp [cuts, closed, Event.cuts]
  | crashWriter t htx => simp [cuts, closed]
  | startRelay i hnone => rfl
  | stopRelay i k hk => rfl
  | relay i k k' db stream hk hfree hm => rfl
  | raises i k exc hk hlive => cases ha
  | loseReply i k entry' payload rest exc hk hpc => cases ha
  | crashRelay i k hk hlive => cases ha

/-- While at most one relay runs at a time, the stream repeats, event by event, a first part of the
commits in the order of their ids. An event is repeated at most as often as a relay ended between
its publish and its delete; without such an end, an empty poll finds each event published once. -/
theorem stream_stutters_commits (acts : List (Action F)) (w : World F)
    (hjson : ∀ order now, .insertOrder order now ∈ acts → RoundTrips order)
    (halone : Along step StartsAlone {} acts) (hrun : run step {} acts = some w) :
    (w.committed.map Prod.fst = w.db.orders ∧ w.committed.Pairwise fun p q =>
      ∃ m n, p.2.id = some m ∧ q.2.id = some n ∧ m < n) ∧
    (∃ bouts : List (Commit F × ℕ), bouts.map Prod.fst <+: w.committed ∧
      w.stream = stutter (fun p => encodeFields (orderCreatedEvent p.1)) bouts ∧
      ∀ b ∈ bouts, 1 ≤ b.2 ∧ b.2 ≤ 1 + w.cuts b.1.2) ∧
    ((∀ entry, w.cuts entry = 0) → w.db.pollOutbox = [] →
      w.stream = w.db.orders.map (fun order => encodeFields (orderCreatedEvent order)) ∧
        w.stream.Nodup) ∧
    ((∀ a ∈ acts, breaksRelay a = false) → ∀ entry, w.cuts entry = 0) := by
  have hi : OrderInv w := by
    apply run_invariant orderInv_step orderInv_init ?_ hrun
    refine along_and.mpr ⟨along_of_forall ?_ _, halone⟩
    rintro a ha v order now rfl
    exact hjson order now ha
  obtain ⟨l, k, hs, -⟩ := hi.line
  refine ⟨⟨hi.commits.orders, hi.commits.increasing⟩, ?_, ?_, ?_⟩
  · obtain ⟨bouts, hprefix, hout, hb⟩ := l.exists_bouts commitEvent
    refine ⟨bouts, hs.items ▸ hprefix, hs.stream.trans hout, fun b hmem => ?_⟩
    obtain ⟨hpos, hdone | hhead⟩ := hb b hmem
    · have hle := hs.done b hdone
      exact ⟨hpos, by omega⟩
    · obtain ⟨hcopies, hfirst⟩ := l.eq_copies_of_mem_head hhead
      have hle := hs.head b.1 hfirst
      refine ⟨hpos, ?_⟩
      split_ifs at hle
      · omega
      · omega
  · intro hcuts hpoll
    have hwait : l.waiting = [] := by
      have hw := hs.waiting
      rw [Tables.outbox_of_pollOutbox_nil hpoll, List.map_nil] at hw
      exact List.map_eq_nil_iff.mp hw
    have honce : ∀ b ∈ l.done, b.2 = 1 := by
      intro b hb
      have hle := hs.done b hb
      have hpos := l.shown b hb
      rw [hcuts] at hle
      omega
    have hall : w.stream =
        w.db.orders.map (fun order => encodeFields (orderCreatedEvent order)) := by
      rw [hs.stream, Line.output_of_once commitEvent hwait honce, hs.items, ← hi.commits.orders,
        List.map_map]
      rfl
    refine ⟨hall, ?_⟩
    rw [hall]
    apply (List.nodup_map_iff_inj_on w.db.primaryKey.of_map).mpr
    intro o ho o' ho' heq
    have hdec := congrArg decodeFields heq
    rw [decodeFields_encodeFields, decodeFields_encodeFields] at hdec
    exact List.inj_on_of_nodup_map w.db.primaryKey ho ho'
      (orderId_of_orderCreatedEvent (Except.ok.inj hdec))
  · intro hacts entry
    exact run_invariant (I := fun v : World F => v.cuts entry = 0)
      (fun v a v' hv ha h => (cuts_step ha h entry).trans hv) rfl
      (along_of_forall (fun a ha _ => hacts a ha) _) hrun

/-- Two orders are relayed; the first relay crashes between the publish and the delete of the first. -/
def crashOnce : List (Action ℤ) :=
  (.startRelay 0 :: [.insertOrder firstOrder 0, .insertOutbox, .commit, .relay 0, .relay 0,
    .insertOrder secondOrder 1, .insertOutbox, .commit, .crashRelay 0]) ++
  .startRelay 1 :: [.relay 1, .relay 1, .relay 1, .relay 1, .relay 1]

theorem crashOnce_alone : Along step StartsAlone {} crashOnce := by
  have hquiet (as : List (Action ℤ)) (has : ∀ a ∈ as, ∀ i, a ≠ .startRelay i) (w : World ℤ) :
      Along step StartsAlone w as :=
    along_of_forall (fun a ha v i hi => absurd hi (has a ha i)) w
  apply along_append.mpr
  constructor
  · refine ⟨fun i hi j k hk => ?_, fun t _ => hquiet _ ?_ t⟩
    · cases hk
    · simp
  · intro t ht
    cases ht
    refine ⟨fun i hi j k hk => ?_, fun u _ => hquiet _ ?_ u⟩
    · by_cases hj : j = 0
      · subst hj
        cases hk
        rfl
      · simp [setRelay, endRelay, moved, closed, hj] at hk
    · simp

theorem crashOnce_stutters :
    ∃ w, run step {} crashOnce = some w ∧ w.db.outbox = [] ∧ w.stream.length = 3 ∧
      ∃ bouts : List (Commit ℤ × ℕ), bouts.map Prod.fst <+: w.committed ∧
        w.stream = stutter (fun p => encodeFields (orderCreatedEvent p.1)) bouts ∧
        ∀ b ∈ bouts, 1 ≤ b.2 ∧ b.2 ≤ 1 + w.cuts b.1.2 := by
  obtain ⟨w, hw, hempty, hlen⟩ : ∃ w, run step {} crashOnce = some w ∧ w.db.outbox = [] ∧
      w.stream.length = 3 := ⟨_, rfl, rfl, rfl⟩
  have hjson : ∀ order now, .insertOrder order now ∈ crashOnce → RoundTrips order := by
    intro order now h
    have ho : order = firstOrder ∧ now = 0 ∨ order = secondOrder ∧ now = 1 := by
      simpa [crashOnce] using h
    rcases ho with ⟨rfl, -⟩ | ⟨rfl, -⟩
    · exact roundTrips_firstOrder
    · exact roundTrips_secondOrder
  obtain ⟨-, hstutter, -⟩ := stream_stutters_commits crashOnce w hjson crashOnce_alone hw
  exact ⟨w, hw, hempty, hlen, hstutter⟩

end World
end Outbox
