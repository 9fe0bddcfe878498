import MessageBrokerPatterns.OutboxDelivery
import MessageBrokerPatterns.Chaos

/-!
# The dual-write baseline

`place_order_dual_write` commits the order and then awaits the publish: between the two nothing but the
call itself knows that an event is owed. The calls of one process run at the same time; a publish may
land and return, raise before it has landed or behind that, and the process may die.

Every committed order is, at all times, on the stream once, in the window of a running call, or lost;
what is lost never comes back, since a retry is refused by the primary key before it publishes.
-/

namespace Outbox.DualWrite
open PyText PyDict ActionRun
variable {F : Type}

/-- The only table. -/
structure OrdersTable (F : Type) where
  rows : List (Order F)
  primaryKey : (rows.map Order.orderId).Nodup

namespace OrdersTable

def createOrdersTable : OrdersTable F where
  rows := []
  primaryKey := List.nodup_nil

def insert (t : OrdersTable F) (order : Order F) : Except PyExc (OrdersTable F) :=
  if h : order.orderId ∈ t.rows.map Order.orderId then .error Tables.integrityError
  else .ok {
    rows := t.rows ++ [order]
    primaryKey := by
      rw [List.map_append, List.map_singleton, List.nodup_append]
      refine ⟨t.primaryKey, List.nodup_singleton _, ?_⟩
      rintro a ha b hb rfl
      exact h (List.mem_singleton.mp hb ▸ ha) }

def countOrders (t : OrdersTable F) : ℕ := t.rows.length

end OrdersTable

inductive Pc where
  | refused (e : PyExc)
  | publishing
  | returned
  | raised (e : PyExc)
  | crashed

/-- A call of `place_order_dual_write`; `landed` tells whether its `XADD` has been executed. -/
structure Call (F : Type) where
  order : Order F
  pc : Pc
  landed : Bool := false

structure World (F : Type) where
  table : OrdersTable F := .createOrdersTable
  stream : List Fields := []
  calls : List (Call F) := []

inductive Action (F : Type)
  | place (order : Order F)
  | lands (i : ℕ)
  | returns (i : ℕ)
  | raises (i : ℕ) (e : PyExc)
  | crash

/-- The process dies with what it has in hand. -/
def Call.crash (c : Call F) : Call F :=
  match c.pc with
  | .publishing => { c with pc := .crashed }
  | _ => c

variable [PyJson F]

def step (w : World F) : Action F → Option (World F)
  | .place order =>
      match w.table.insert order with
      | .ok table => some { w with table, calls := w.calls ++ [⟨order, .publishing, false⟩] }
      | .error e => some { w with calls := w.calls ++ [⟨order, .refused e, false⟩] }
  | .lands i =>
      match w.calls[i]? with
      | some ⟨order, .publishing, false⟩ => some { w with
          stream := w.stream ++ [encodeFields (orderCreatedEvent order)]
          calls := w.calls.set i ⟨order, .publishing, true⟩ }
      | _ => none
  | .returns i =>
      match w.calls[i]? with
      | some ⟨order, .publishing, true⟩ => some { w with
          calls := w.calls.set i ⟨order, .returned, true⟩ }
      | _ => none
  | .raises i e =>
      match w.calls[i]? with
      | some ⟨order, .publishing, landed⟩ => some { w with
          calls := w.calls.set i ⟨order, .raised e, landed⟩ }
      | _ => none
  | .crash => some { w with calls := w.calls.map Call.crash }

def Call.committed (c : Call F) : Bool :=
  match c.pc with
  | .refused _ => false
  | _ => true

/-- The call stands between its commit and its publish. -/
def Call.inWindow (c : Call F) : Bool :=
  match c.pc with
  | .publishing => !c.landed
  | _ => false

/-- The call is over, its order is committed and its event was never published. -/
def Call.lost (c : Call F) : Bool :=
  match c.pc with
  | .raised _ => !c.landed
  | .crashed => !c.landed
  | _ => false

def event (c : Call F) : Fields := encodeFields (orderCreatedEvent c.order)

/-- The table holds the orders of the committed calls, the stream the events of those that landed. -/
structure DualInv (w : World F) : Prop where
  rows : w.table.rows.Perm ((w.calls.filter Call.committed).map Call.order)
  stream : w.stream.Perm ((w.calls.filter Call.landed).map event)
  landed : ∀ c ∈ w.calls, c.landed = true → c.committed = true
  returned : ∀ c ∈ w.calls, c.pc = .returned → c.landed = true

theorem perm_set {α : Type*} {l : List α} {i : ℕ} {c : α} (hc : l[i]? = some c) (c' : α) : ∃ rest,
    l.Perm (c :: rest) ∧ (l.set i c').Perm (c' :: rest) := by
  obtain ⟨hi, rfl⟩ := List.getElem?_eq_some_iff.mp hc
  exact ⟨l.eraseIdx i, (List.getElem_cons_eraseIdx_perm hi).symm, List.set_perm_cons_eraseIdx hi c'⟩

omit [PyJson F] in
theorem insert_eq_ok {t t' : OrdersTable F} {order : Order F} (h : t.insert order = .ok t') :
    t'.rows = t.rows ++ [order] := by
  unfold OrdersTable.insert at h
  split_ifs at h
  cases h
  rfl

theorem DualInv.set {w : World F} (h : DualInv w) {i : ℕ} {c : Call F} (hc : w.calls[i]? = some c)
    (c' : Call F) (more : List Fields) (horder : c'.order = c.order)
    (hcommitted : c.committed = true ∧ c'.committed = true)
    (hreturned : c'.pc = .returned → c'.landed = true)
    (hmore : c'.landed = c.landed ∧ more = [] ∨ c.landed = false ∧ c'.landed = true ∧ more = [event c]) :
    DualInv { w with stream := w.stream ++ more, calls := w.calls.set i c' } := by
  obtain ⟨rest, hold, hnew⟩ := perm_set hc c'
  have hmem {d : Call F} (hd : d ∈ w.calls.set i c') : d = c' ∨ d ∈ w.calls := by
    rcases List.mem_cons.mp (hnew.subset hd) with hd | hd
    · exact Or.inl hd
    · exact Or.inr (hold.symm.subset (List.mem_cons_of_mem _ hd))
  refine ⟨h.rows.trans ?_, ?_, fun d hd hl => ?_, fun d hd hr => ?_⟩
  · refine ((hold.filter _).map _).trans (.trans ?_ ((hnew.filter _).map _).symm)
    rw [List.filter_cons_of_pos hcommitted.1, List.filter_cons_of_pos hcommitted.2, List.map_cons,
      List.map_cons, horder]
  · refine ((h.stream.append_right more).trans ?_).trans ((hnew.filter _).map _).symm
    refine (((hold.filter _).map _).append_right more).trans ?_
    rcases hmore with ⟨hl, rfl⟩ | ⟨hl, hl', rfl⟩
    · rw [List.append_nil]
      cases hcl : c.landed with
      | true => rw [List.filter_cons_of_pos hcl, List.filter_cons_of_pos (hl.trans hcl), List.map_cons,
          List.map_cons, event, event, horder]
      | false => rw [List.filter_cons_of_neg (by simp [hcl]), List.filter_cons_of_neg (by simp [hl, hcl])]
    · rw [List.filter_cons_of_neg (by simp [hl]), List.filter_cons_of_pos hl', List.map_cons]
      have hevent : event c' = event c := by rw [event, event, horder]
      rw [hevent]
      exact List.perm_append_singleton _ _
  · rcases hmem hd with rfl | hd
    · exact hcommitted.2
    · exact h.landed d hd hl
  · rcases hmem hd with rfl | hd
    · exact hreturned hr
    · exact h.returned d hd hr

omit [PyJson F] in
theorem crash_fields (c : Call F) : c.crash.order = c.order ∧ c.crash.landed = c.landed ∧
    c.crash.committed = c.committed ∧ (c.crash.pc = .returned → c.pc = .returned) := by
  unfold Call.crash
  split
  · rename_i hpc
    simp [Call.committed, hpc]
  · exact ⟨rfl, rfl, rfl, id⟩

theorem DualInv.place {w : World F} (h : DualInv w) (c : Call F) (table : OrdersTable F)
    (hc : c.landed = false) (hr : c.pc ≠ .returned)
    (hrows : table.rows = w.table.rows ++ if c.committed then [c.order] else []) :
    DualInv { w with table, calls := w.calls ++ [c] } := by
  refine ⟨?_, ?_, fun d hd hl => ?_, fun d hd hp => ?_⟩
  · change table.rows.Perm (((w.calls ++ [c]).filter _).map _)
    rw [hrows, List.filter_append, List.map_append]
    refine h.rows.append ?_
    by_cases hcomm : c.committed = true <;> simp [hcomm]
  · change w.stream.Perm (((w.calls ++ [c]).filter _).map _)
    rw [List.filter_append, List.filter_cons_of_neg (by simp [hc]), List.filter_nil,
      List.append_nil]
    exact h.stream
  · rcases List.mem_append.mp hd with hd | hd
    · exact h.landed d hd hl
    · rw [List.mem_singleton.mp hd, hc] at hl
      cases hl
  · rcases List.mem_append.mp hd with hd | hd
    · exact h.returned d hd hp
    · rw [List.mem_singleton.mp hd] at hp
      exact absurd hp hr

theorem DualInv.crash {w : World F} (h : DualInv w) :
    DualInv { w with calls := w.calls.map Call.crash } := by
  have hcommitted : (w.calls.map Call.crash).filter Call.committed =
      (w.calls.filter Call.committed).map Call.crash := by
    rw [List.filter_map]
    congr 2
    funext c
    exact (crash_fields c).2.2.1
  have hlanded : (w.calls.map Call.crash).filter Call.landed =
      (w.calls.filter Call.landed).map Call.crash := by
    rw [List.filter_map]
    congr 2
    funext c
    exact (crash_fields c).2.1
  refine ⟨?_, ?_, fun d hd hl => ?_, fun d hd hp => ?_⟩
  · change w.table.rows.Perm (((w.calls.map Call.crash).filter _).map _)
    rw [hcommitted, List.map_map]
    have hsame : (Call.order ∘ Call.crash : Call F → Order F) = Call.order :=
      funext fun c => (crash_fields c).1
    rw [hsame]
    exact h.rows
  · change w.stream.Perm (((w.calls.map Call.crash).filter _).map _)
    rw [hlanded, List.map_map]
    have hsame : (event ∘ Call.crash : Call F → Fields) = event :=
      funext fun c => by rw [Function.comp_apply, event, event, (crash_fields c).1]
    rw [hsame]
    exact h.stream
  · obtain ⟨c, hc, rfl⟩ := List.mem_map.mp hd
    obtain ⟨-, hland, hcomm, -⟩ := crash_fields c
    rw [hcomm]
    exact h.landed c hc (hland ▸ hl)
  · obtain ⟨c, hc, rfl⟩ := List.mem_map.mp hd
    obtain ⟨-, hland, -, hret⟩ := crash_fields c
    rw [hland]
    exact h.returned c hc (hret hp)

theorem dualInv_step (w : World F) (a : Action F) (w' : World F) (h : DualInv w)
    (hw : step w a = some w') : DualInv w' := by
  cases a with
  | place order =>
    simp only [step] at hw
    cases hins : w.table.insert order with
    | ok table =>
      simp only [hins, Option.some.injEq] at hw
      subst hw
      exact h.place _ table rfl (by simp) (insert_eq_ok hins)
    | error e =>
      simp only [hins, Option.some.injEq] at hw
      subst hw
      exact h.place _ w.table rfl (by simp) (List.append_nil _).symm
  | lands i =>
    simp only [step] at hw
    split at hw
    · rename_i order hc
      cases hw
      exact h.set hc _ _ rfl ⟨rfl, rfl⟩ (by simp) (Or.inr ⟨rfl, rfl, rfl⟩)
    · cases hw
  | returns i =>
    simp only [step] at hw
    split at hw
    · rename_i order hc
      cases hw
      simpa using h.set hc ⟨order, .returned, true⟩ [] rfl ⟨rfl, rfl⟩ (fun _ => rfl) (Or.inl ⟨rfl, rfl⟩)
    · cases hw
  | raises i e =>
    simp only [step] at hw
    split at hw
    · rename_i order landed hc
      cases hw
      simpa using h.set hc ⟨order, .raised e, landed⟩ [] rfl ⟨rfl, rfl⟩ (by simp) (Or.inl ⟨rfl, rfl⟩)
    · cases hw
  | crash =>
    cases hw
    exact h.crash

theorem event_inj {c d : Call F} (h : event c = event d) : c.order.orderId = d.order.orderId := by
  refine orderId_of_orderCreatedEvent ?_
  have hdec := decodeFields_encodeFields (orderCreatedEvent c.order)
  rw [← event, h, event, decodeFields_encodeFields] at hdec
  exact (Except.ok.inj hdec).symm

namespace DualInv
variable {w : World F}

theorem nodup_committed (h : DualInv w) :
    ((w.calls.filter Call.committed).map fun c => c.order.orderId).Nodup := by
  have hnodup := ((h.rows.map Order.orderId).nodup_iff).mp w.table.primaryKey
  rwa [List.map_map] at hnodup

theorem eq_of_orderId (h : DualInv w) {c d : Call F} (hc : c ∈ w.calls) (hd : d ∈ w.calls)
    (hcc : c.committed = true) (hdc : d.committed = true)
    (hid : c.order.orderId = d.order.orderId) : c = d :=
  List.inj_on_of_nodup_map h.nodup_committed (List.mem_filter.mpr ⟨hc, hcc⟩)
    (List.mem_filter.mpr ⟨hd, hdc⟩) hid

theorem nodup_stream (h : DualInv w) : w.stream.Nodup := by
  rw [h.stream.nodup_iff]
  have hsub : w.calls.filter Call.landed = (w.calls.filter Call.committed).filter Call.landed := by
    rw [List.filter_filter]
    refine List.filter_congr fun c hc => ?_
    cases hl : c.landed with
    | true => rw [h.landed c hc hl]; rfl
    | false => rfl
  have hids := h.nodup_committed.sublist ((List.filter_sublist (p := Call.landed)).map _)
  rw [← hsub] at hids
  rw [List.Nodup, List.pairwise_map] at hids ⊢
  exact hids.imp fun hne heq => hne (event_inj heq)

/-- The committed calls are those that have landed, those in the window and the lost ones. -/
theorem count_committed (h : DualInv w) : w.calls.countP Call.committed =
    w.calls.countP Call.landed + w.calls.countP Call.inWindow + w.calls.countP Call.lost := by
  have hone : ∀ c ∈ w.calls, (if c.committed = true then 1 else 0) =
      (if c.landed = true then 1 else 0) + (if c.inWindow = true then 1 else 0) +
        if c.lost = true then 1 else 0 := by
    intro c hc
    have hl := h.landed c hc
    have hr := h.returned c hc
    obtain ⟨order, pc, landed⟩ := c
    cases pc <;> cases landed <;> simp_all [Call.committed, Call.inWindow, Call.lost]
  generalize w.calls = calls at hone
  induction calls with
  | nil => rfl
  | cons c calls ih =>
    have hc := hone c List.mem_cons_self
    have hrest := ih fun d hd => hone d (List.mem_cons_of_mem _ hd)
    rw [List.countP_cons, List.countP_cons, List.countP_cons, List.countP_cons]
    omega

end DualInv

theorem lost_stays {i : ℕ} {c : Call F} (hlost : c.lost = true) (w : World F) (a : Action F)
    (w' : World F) (hc : w.calls[i]? = some c) (hw : step w a = some w') : w'.calls[i]? = some c := by
  have hset {j : ℕ} {d : Call F} (d' : Call F) (hd : w.calls[j]? = some d)
      (hpc : d.pc = .publishing) : (w.calls.set j d')[i]? = some c := by
    have hne : j ≠ i := by
      rintro rfl
      obtain rfl := Option.some.inj (hc.symm.trans hd)
      simp [Call.lost, hpc] at hlost
    rw [List.getElem?_set_ne hne]
    exact hc
  have happend (d : Call F) : (w.calls ++ [d])[i]? = some c := by
    rw [List.getElem?_append_left (List.getElem?_eq_some_iff.mp hc).1]
    exact hc
  cases a with
  | place order =>
    simp only [step] at hw
    split at hw
    · cases hw
      exact happend _
    · cases hw
      exact happend _
  | lands j =>
    simp only [step] at hw
    split at hw
    · rename_i order hd
      cases hw
      exact hset _ hd rfl
    · cases hw
  | returns j =>
    simp only [step] at hw
    split at hw
    · rename_i order hd
      cases hw
      exact hset _ hd rfl
    · cases hw
  | raises j e =>
    simp only [step] at hw
    split at hw
    · rename_i order landed hd
      cases hw
      exact hset _ hd rfl
    · cases hw
  | crash =>
    cases hw
    have hsame : c.crash = c := by
      unfold Call.crash
      split
      · rename_i hpc
        simp [Call.lost, hpc] at hlost
      · rfl
    change (w.calls.map Call.crash)[i]? = some c
    rw [List.getElem?_map, hc, Option.map_some, hsame]

omit [PyJson F] in
theorem Call.committed_of_lost {c : Call F} (h : c.lost = true) :
    c.committed = true ∧ c.landed = false := by
  obtain ⟨order, pc, landed⟩ := c
  cases pc <;> cases landed <;> simp_all [committed, lost]

theorem dualInv_init : DualInv ({} : World F) :=
  ⟨List.Perm.refl _, List.Perm.refl _, fun c hc => (by cases hc), fun c hc => (by cases hc)⟩

/-- In every run the committed orders are those whose event is on the stream, once each, those in the
window of a running call, and the lost ones; no event is of an order that was not committed; and an order
that has been lost stays committed and unpublished whatever is called afterwards. -/
theorem dual_write_loses (actions : List (Action F)) (w : World F)
    (hrun : run step {} actions = some w) :
    w.table.countOrders =
        w.stream.length + w.calls.countP Call.inWindow + w.calls.countP Call.lost ∧
      w.stream.Nodup ∧
      (∀ f ∈ w.stream, ∃ order ∈ w.table.rows, f = encodeFields (orderCreatedEvent order)) ∧
      ∀ c ∈ w.calls, c.lost = true → ∀ more v, run step w more = some v →
        c.order ∈ v.table.rows ∧ encodeFields (orderCreatedEvent c.order) ∉ v.stream := by
  have h : DualInv w := run_invariant_of_step dualInv_step dualInv_init hrun
  refine ⟨?_, h.nodup_stream, fun f hf => ?_, fun c hc hlost more v hmore => ?_⟩
  · rw [OrdersTable.countOrders, h.rows.length_eq, List.length_map, ← List.countP_eq_length_filter,
      h.count_committed, h.stream.length_eq, List.length_map, ← List.countP_eq_length_filter]
  · obtain ⟨c, hc, rfl⟩ := List.mem_map.mp (h.stream.subset hf)
    obtain ⟨hc, hl⟩ := List.mem_filter.mp hc
    exact ⟨c.order, h.rows.symm.subset (List.mem_map.mpr
      ⟨c, List.mem_filter.mpr ⟨hc, h.landed c hc hl⟩, rfl⟩), rfl⟩
  · obtain ⟨i, hi⟩ := List.mem_iff_getElem?.mp hc
    obtain ⟨hv, hvi⟩ : DualInv v ∧ v.calls[i]? = some c :=
      run_invariant_of_step (I := fun u => DualInv u ∧ u.calls[i]? = some c)
        (fun u a u' hu hs => ⟨dualInv_step u a u' hu.1 hs, lost_stays hlost u a u' hu.2 hs⟩)
        ⟨h, hi⟩ hmore
    obtain ⟨hcomm, hland⟩ := Call.committed_of_lost hlost
    have hcv : c ∈ v.calls := List.mem_of_getElem? hvi
    refine ⟨hv.rows.symm.subset (List.mem_map.mpr
      ⟨c, List.mem_filter.mpr ⟨hcv, hcomm⟩, rfl⟩), fun hmem => ?_⟩
    obtain ⟨d, hd, hevent⟩ := List.mem_map.mp (hv.stream.subset hmem)
    obtain ⟨hd, hdl⟩ := List.mem_filter.mp hd
    obtain rfl := hv.eq_of_orderId hd hcv (hv.landed d hd hdl) hcomm (event_inj hevent)
    rw [hland] at hdl
    cases hdl

/-- The first publish succeeds and the second meets a broker that is down; the caller retries, which the
primary key refuses. -/
def brokerDown : List (Action ℤ) :=
  [.place firstOrder, .place secondOrder, .lands 0, .raises 1 Chaos.brokerUnavailableError,
    .returns 0, .place secondOrder]

theorem brokerDown_loses : ∃ w, run step {} brokerDown = some w ∧ w.table.countOrders = 2 ∧
    w.stream.length = 1 ∧ w.calls.countP Call.inWindow = 0 ∧ w.calls.countP Call.lost = 1 ∧
    w.table.countOrders =
      w.stream.length + w.calls.countP Call.inWindow + w.calls.countP Call.lost ∧
    ∀ more v, run step w more = some v →
      encodeFields (orderCreatedEvent secondOrder) ∉ v.stream := by
  obtain ⟨w, hw, hrows, hstream, hwindow, hlost, hcall⟩ : ∃ w, run step {} brokerDown = some w ∧
      w.table.countOrders = 2 ∧ w.stream.length = 1 ∧ w.calls.countP Call.inWindow = 0 ∧
      w.calls.countP Call.lost = 1 ∧
      w.calls[1]? = some ⟨secondOrder, .raised Chaos.brokerUnavailableError, false⟩ :=
    ⟨_, rfl, rfl, rfl, rfl, rfl, rfl⟩
  obtain ⟨hcount, -, -, hnever⟩ := dual_write_loses brokerDown w hw
  exact ⟨w, hw, hrows, hstream, hwindow, hlost, hcount, fun more v hv =>
    (hnever _ (List.mem_of_getElem? hcall) rfl more v hv).2⟩

end Outbox.DualWrite
