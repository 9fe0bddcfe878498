import MessageBrokerPatterns.Envelope
import MessageBrokerPatterns.DlqBroker
import MessageBrokerPatterns.CompetingConsumer
import MessageBrokerPatterns.PriorityBroker

/-!
# Records in envelopes and on the dead-letter stream

The headers of an envelope and the notes of a dead letter stand beside the fields of a record, under
keys that no record uses. A decoder of records reads its own keys only and finds them unchanged.
-/

namespace Entities
open PyText PyDict Dlq CompetingConsumers PriorityQueue
variable {D : Type} [PyDatetime D] {α : Type}

/-- The decoder looks at the values of the keys and at nothing else. -/
def Reads (ks : List String) (decode : Fields → Except PyExc α) : Prop :=
  ∀ f g, (∀ k ∈ ks, getText f k = getText g k) → decode f = decode g

theorem reads_payment :
    Reads ["payment_id", "amount_cents", "customer_id", "currency"] Payment.fromFields := by
  intro f g h
  simp only [List.forall_mem_cons, List.not_mem_nil, false_implies, implies_true, and_true] at h
  obtain ⟨hid, hamount, hcustomer, hcurrency⟩ := h
  simp only [Payment.fromFields, hid, hamount, hcustomer, hcurrency]

theorem reads_task : Reads ["task_id", "payload"] Task.fromFields := by
  intro f g h
  simp only [List.forall_mem_cons, List.not_mem_nil, false_implies, implies_true, and_true] at h
  obtain ⟨hid, hpayload⟩ := h
  simp only [Task.fromFields, hid, hpayload]

theorem reads_supportTicket :
    Reads ["ticket_id", "subject", "priority", "customer_id"] SupportTicket.fromFields := by
  intro f g h
  simp only [List.forall_mem_cons, List.not_mem_nil, false_implies, implies_true, and_true] at h
  obtain ⟨hid, hsubject, hpriority, hcustomer⟩ := h
  simp only [SupportTicket.fromFields, hid, hsubject, hpriority, hcustomer]

namespace Envelope

theorem getText_toFields (e : Envelope D) {k : String} (hk : k ∉ headerFields) :
    getText (encodeFields e.toFields) k = getText (encodeFields e.payload) k := by
  have hget : get? e.toFields k = get? e.payload k := by
    apply Option.ext
    intro v
    rw [← mem_iff_get? nodup_keys_toFields, ← mem_iff_get? e.nodup, toFields_eq, List.mem_append]
    apply or_iff_right
    exact fun hheader => hk (mem_keys_headers.mp (List.mem_map_of_mem hheader))
  simp only [getText, getBytes, get?_encodeFields, hget]

theorem decode_toFields (e : Envelope D) {ks : List String} {decode : Fields → Except PyExc α}
    (hreads : Reads ks decode) (hks : ∀ k ∈ ks, k ∉ headerFields) :
    decode (encodeFields e.toFields) = decode (encodeFields e.payload) :=
  hreads _ _ fun k hk => e.getText_toFields (hks k hk)

end Envelope

/-- Payments, tasks and tickets decode to themselves from their own fields and from every envelope
around them, and payments also from every dead letter. -/
theorem decoders_see_through :
    (∀ r : Payment, Payment.fromFields (encodeFields r.toFields) = .ok r ∧
      (∀ e : Envelope D, e.payload = r.toFields →
        Payment.fromFields (encodeFields e.toFields) = .ok r) ∧
      ∀ (reason : String) (attempt : ℤ),
        Payment.fromFields (encodeFields (r.dlqFields reason attempt)) = .ok r) ∧
    (∀ r : Task, Task.fromFields (encodeFields r.toFields) = .ok r ∧
      ∀ e : Envelope D, e.payload = r.toFields →
        Task.fromFields (encodeFields e.toFields) = .ok r) ∧
    ∀ r : SupportTicket, SupportTicket.fromFields (encodeFields r.toFields) = .ok r ∧
      ∀ e : Envelope D, e.payload = r.toFields →
        SupportTicket.fromFields (encodeFields e.toFields) = .ok r := by
  refine ⟨fun r => ⟨r.fromFields_toFields, fun e he => ?_, r.fromFields_dlqFields⟩,
    fun r => ⟨r.fromFields_toFields, fun e he => ?_⟩,
    fun r => ⟨r.fromFields_toFields, fun e he => ?_⟩⟩
  · rw [e.decode_toFields reads_payment (by decide), he, Payment.fromFields_toFields]
  · rw [e.decode_toFields reads_task (by decide), he, Task.fromFields_toFields]
  · rw [e.decode_toFields reads_supportTicket (by decide), he, SupportTicket.fromFields_toFields]

/-- A refund in an envelope, and after its third attempt. -/
theorem decoders_see_through_refund : ∃ e : Envelope NewYear,
    Envelope.new "m-2" "m-1" "m-1" .berlin (Payment.toFields ⟨"pay-1", -250, "cus-1", "EUR"⟩) = .ok e ∧
      Payment.fromFields (encodeFields e.toFields) = .ok ⟨"pay-1", -250, "cus-1", "EUR"⟩ ∧
      Payment.fromFields (encodeFields
        (Payment.dlqFields ⟨"pay-1", -250, "cus-1", "EUR"⟩ "PaymentError" 3)) =
          .ok ⟨"pay-1", -250, "cus-1", "EUR"⟩ := by
  obtain ⟨e, he, hp⟩ : ∃ e : Envelope NewYear, Envelope.new "m-2" "m-1" "m-1" .berlin
      (Payment.toFields ⟨"pay-1", -250, "cus-1", "EUR"⟩) = .ok e ∧
      e.payload = Payment.toFields ⟨"pay-1", -250, "cus-1", "EUR"⟩ := ⟨_, rfl, rfl⟩
  obtain ⟨-, hsees, hdead⟩ := (decoders_see_through (D := NewYear)).1 ⟨"pay-1", -250, "cus-1", "EUR"⟩
  exact ⟨e, he, hsees e hp, hdead "PaymentError" 3⟩

end Entities
