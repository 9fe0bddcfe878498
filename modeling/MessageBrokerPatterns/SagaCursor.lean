import MessageBrokerPatterns.SagaDelivery

/-!
# The cursors of a saga run and the work behind them

A run moves its cursor to an entry before it routes the entry to the services. `Notes` records,
beside the world, for which entries the body of the loop has come to its end, so that every service
call made for them has returned, and which entry's body a run is inside of: suspended in a service
call, or ended there by an exception. A body that does neither is over before anyone else can look.
The streams may hold anything at the start, and other writers may append to them at any time.
-/

namespace Saga
open PyText PyDict RedisStream ActionRun
variable {ρ F : Type}

/-- What the bodies of the loops have come to, by run. -/
structure Notes (ρ : Type) where
  done : ρ → List (Stream × ℕ) := fun _ => []
  inside : ρ → Option (Stream × ℕ) := fun _ => none

namespace Notes
variable [DecidableEq ρ] (n : Notes ρ) (r : ρ) (e : Stream × ℕ)

/-- The body for an entry suspends in a service call, or raises. -/
def enter : Notes ρ := { n with inside := Function.update n.inside r (some e) }

/-- The body for an entry runs to its end. -/
def finish : Notes ρ := { n with done := Function.update n.done r (e :: n.done r) }

/-- The service call that the run is suspended in, if it is, returns, and with it the body. -/
def leave : Notes ρ :=
  match n.inside r with
  | some e => { n.finish r e with inside := Function.update n.inside r none }
  | none => n

end Notes

/-- The body of the loop for an entry runs to its end without suspending and without an exception:
no service is called for it, or the call returns at once. -/
def Immediate (svc : ℕ) (m : Memory ρ F) (s : Stream) (raw : Fields) : Prop :=
  ∃ eventType data, eventTypeOf raw = .ok eventType ∧ decodeFields raw = .ok data ∧
    match s with
    | .orders => eventType ≠ "OrderCreated"
    | .payments => eventType ≠ "PaymentProcessed" ∧ (eventType = "PaymentFailed" →
        ∃ event, PaymentFailed.fromDict data = .ok event ∧ get? (m.tables svc) event.orderId = none)
    | .shipping => eventType = "OrderShipped" → ∃ event, OrderShipped.fromDict data = .ok event

theorem immediate_congr {svc : ℕ} {m m' : Memory ρ F} (h : m'.tables = m.tables) (s : Stream)
    (raw : Fields) : Immediate svc m' s raw ↔ Immediate svc m s raw := by
  rw [Immediate, Immediate, h]

variable [DecidableEq ρ]

/-- An event of a failed payment is dealt with at once exactly if nobody knows its order. -/
theorem handlePaymentFailed_snd {svc : ℕ} {m : Memory ρ F} {event : PaymentFailed} :
    (OrderService.handlePaymentFailed svc m event).2 = none ↔
      get? (m.tables svc) event.orderId = none := by
  unfold OrderService.handlePaymentFailed OrderService.getOrder
  cases get? (m.tables svc) event.orderId with
  | none => simp
  | some q => simp

/-- What `route` does with an entry that the body gets through at once. -/
theorem route_eq_none_iff [PyFloat F] (svc : ℕ) (uuid : String) (m : Memory ρ F) (s : Stream)
    (raw : Fields) :
    (∃ m', route svc uuid m s raw = .ok (m', none)) ↔ Immediate svc m s raw := by
  simp only [route, bind_eq_ok, Immediate]
  constructor
  · rintro ⟨m', eventType, ht, data, hd, h⟩
    refine ⟨eventType, data, ht, hd, ?_⟩
    cases s with
    | orders =>
      intro hkind
      simp only [hkind, if_true, bind_eq_ok] at h
      obtain ⟨event, -, p, -, h⟩ := h
      cases h
    | payments =>
      simp only at h
      split_ifs at h with hprocessed hfailed
      · simp only [bind_eq_ok] at h
        obtain ⟨event, -, h⟩ := h
        cases h
      · simp only [bind_eq_ok] at h
        obtain ⟨event, hevent, h⟩ := h
        refine ⟨hprocessed, fun _ => ⟨event, hevent, handlePaymentFailed_snd.mp ?_⟩⟩
        rw [Except.ok.inj h]
      · exact ⟨hprocessed, fun hkind => absurd hkind hfailed⟩
    | shipping =>
      intro hkind
      simp only [hkind, if_true, bind_eq_ok] at h
      obtain ⟨event, hevent, -⟩ := h
      exact ⟨event, hevent⟩
  · rintro ⟨eventType, data, ht, hd, h⟩
    cases s with
    | orders => exact ⟨m, eventType, ht, data, hd, by simp only [h, if_false]; rfl⟩
    | payments =>
      obtain ⟨hprocessed, hfailed⟩ := h
      by_cases hkind : eventType = "PaymentFailed"
      · obtain ⟨event, hevent, horder⟩ := hfailed hkind
        refine ⟨(OrderService.handlePaymentFailed svc m event).1, eventType, ht, data, hd, ?_⟩
        simp only [if_neg hprocessed, if_pos hkind, bind_eq_ok]
        refine ⟨event, hevent, ?_⟩
        rw [← handlePaymentFailed_snd.mpr horder]
        rfl
      · refine ⟨m, eventType, ht, data, hd, ?_⟩
        simp only [hprocessed, hkind, if_false]
        rfl
    | shipping =>
      by_cases hkind : eventType = "OrderShipped"
      · obtain ⟨event, hevent⟩ := h hkind
        refine ⟨OrderService.handleOrderShipped svc m event, eventType, ht, data, hd, ?_⟩
        simp only [hkind, if_true, bind_eq_ok]
        exact ⟨event, hevent, rfl⟩
      · refine ⟨m, eventType, ht, data, hd, ?_⟩
        simp only [hkind, if_false]
        rfl

/-- Up to the cursors every entry is done, but for the one whose body the run is inside of: that one
is at its cursor. -/
structure Noted (lastIds : Stream → ℕ) (done : List (Stream × ℕ)) (inside : Option (Stream × ℕ)) :
    Prop where
  le : ∀ e ∈ done, e.2 ≤ lastIds e.1
  stuck : ∀ e, inside = some e → 1 ≤ e.2 ∧ e.2 = lastIds e.1 ∧ e ∉ done
  rest : ∀ s id, 1 ≤ id → id ≤ lastIds s → (s, id) ∈ done ∨ inside = some (s, id)

namespace Noted
variable {lastIds : Stream → ℕ} {done : List (Stream × ℕ)} {s : Stream}

theorem le_update (h : Noted lastIds done none) {e : Stream × ℕ} (he : e ∈ done) :
    e.2 ≤ Function.update lastIds s (lastIds s + 1) e.1 := by
  have hle := h.le e he
  by_cases hs : e.1 = s
  · rw [hs, Function.update_self]
    rw [hs] at hle
    omega
  · rwa [Function.update_of_ne hs]

theorem rest_update (h : Noted lastIds done none) {t : Stream} {id : ℕ} (hid : 1 ≤ id)
    (hle : id ≤ Function.update lastIds s (lastIds s + 1) t) :
    (t, id) ∈ done ∨ (t, id) = (s, lastIds s + 1) := by
  have hold (hle : id ≤ lastIds t) : (t, id) ∈ done := by simpa using h.rest t id hid hle
  by_cases ht : t = s
  · subst ht
    rw [Function.update_self] at hle
    rcases Nat.lt_or_ge (lastIds t) id with hlt | hge
    · exact Or.inr (by rw [show id = lastIds t + 1 by omega])
    · exact Or.inl (hold hge)
  · rw [Function.update_of_ne ht] at hle
    exact Or.inl (hold hle)

theorem enter (h : Noted lastIds done none) :
    Noted (Function.update lastIds s (lastIds s + 1)) done (some (s, lastIds s + 1)) := by
  refine ⟨fun e he => h.le_update he, ?_, fun t id hid hle => ?_⟩
  · rintro e ⟨⟩
    refine ⟨Nat.le_add_left _ _, (Function.update_self s _ lastIds).symm, fun hmem => ?_⟩
    have := h.le _ hmem
    simp only at this
    omega
  · exact (h.rest_update hid hle).imp_right fun heq => by rw [heq]

theorem finish (h : Noted lastIds done none) :
    Noted (Function.update lastIds s (lastIds s + 1)) ((s, lastIds s + 1) :: done) none := by
  refine ⟨fun e he => ?_, fun e he => (by cases he), fun t id hid hle => ?_⟩
  · rcases List.mem_cons.mp he with rfl | he
    · exact (Function.update_self s _ lastIds).ge
    · exact h.le_update he
  · rcases h.rest_update hid hle with hmem | heq
    · exact Or.inl (List.mem_cons_of_mem _ hmem)
    · exact Or.inl (heq ▸ List.mem_cons_self)

theorem leave {e : Stream × ℕ} (h : Noted lastIds done (some e)) :
    Noted lastIds (e :: done) none := by
  obtain ⟨-, heq, -⟩ := h.stuck e rfl
  refine ⟨fun e' he' => ?_, fun e' he' => (by cases he'), fun t id hid hle => ?_⟩
  · rcases List.mem_cons.mp he' with rfl | he'
    · exact heq.le
    · exact h.le e' he'
  · rcases h.rest t id hid hle with hmem | hin
    · exact Or.inl (List.mem_cons_of_mem _ hmem)
    · exact Or.inl (Option.some.inj hin ▸ List.mem_cons_self)

end Noted

namespace World
variable {w : World ρ F} {r : ρ} {s : Stream}

theorem lastIds_setRunner {k : Runner} (hk : k.lastIds = (w.runners r).lastIds) (q : ρ) :
    ((w.setRunner r k).runners q).lastIds = (w.runners q).lastIds := by
  by_cases hq : q = r
  · rw [hq, setRunner_self, hk]
  · rw [setRunner_of_ne hq]

theorem lastIds_setPhase (phase : Phase) (q : ρ) :
    ((w.setPhase r phase).runners q).lastIds = (w.runners q).lastIds :=
  lastIds_setRunner (k := { w.runners r with phase }) rfl q

theorem lastIds_endRun (ending : Ending) (q : ρ) :
    ((w.endRun r ending).runners q).lastIds = (w.runners q).lastIds :=
  lastIds_setRunner (k := { w.runners r with ending := some ending }) rfl q

theorem lastIds_endPage (q : ρ) :
    ((w.endPage r s).runners q).lastIds = (w.runners q).lastIds := by
  unfold endPage
  split
  · exact lastIds_setPhase _ q
  · split_ifs
    · exact lastIds_endRun _ q
    · exact lastIds_setPhase _ q

end World

/-! ### The notes of a system of runs -/

variable [PyFloat F]

/-- What going through a page, up to the first `XADD` or exception, adds to the notes. -/
def notePage (r : ρ) (uuid : String) (s : Stream) :
    List (ℕ × Fields) → World ρ F → Notes ρ → Notes ρ
  | [], _, n => n
  | (id, raw) :: rest, w, n =>
      match route (w.runners r).orderSvc uuid w.memory s raw with
      | .error _ => n.enter r (s, id)
      | .ok (m, none) =>
          notePage r uuid s rest (w.routed r s id m (.paging s rest)) (n.finish r (s, id))
      | .ok (_, some _) => n.enter r (s, id)

/-- What an action adds to the notes: only a run that the event loop resumes in a page comes to the
end of a body, or into one. -/
def note (w : World ρ F) (n : Notes ρ) : Action ρ → Notes ρ
  | .resume r uuid =>
      match (w.runners r).phase with
      | .paging s rest => notePage r uuid s rest w (n.leave r)
      | _ => n
  | _ => n

/-- What happens to the system: an action of a run, or an entry that another writer appends. -/
inductive Input (ρ : Type) where
  | act (a : Action ρ)
  | write (p : Publish)

def stepNoted (x : World ρ F × Notes ρ) : Input ρ → Option (World ρ F × Notes ρ)
  | .act a => (x.1.step a).map fun w => (w, note x.1 x.2 a)
  | .write p => some (x.1.xadd p, x.2)

/-- No run has started, and the streams hold whatever they hold. -/
def startNoted (orders : ρ → Order F) (orderSvc : ρ → ℕ) (streams : Stream → List Fields) :
    World ρ F × Notes ρ :=
  ({ World.fresh orders orderSvc with streams }, {})

/-- Every entry up to the cursors of the run has been handled completely. -/
def CursorBehind (x : World ρ F × Notes ρ) (r : ρ) : Prop :=
  ∀ s id, 1 ≤ id → id ≤ (x.1.runners r).lastIds s → (s, id) ∈ x.2.done r

/-- A run that the event loop resumes in a page gets through every entry of it at once. -/
def TakesImmediate (x : World ρ F × Notes ρ) : Input ρ → Prop
  | .act (.resume r _) => ∀ s rest, (x.1.runners r).phase = .paging s rest →
      ∀ e ∈ rest, Immediate (x.1.runners r).orderSvc x.1.memory s e.2
  | _ => True

/-- The notes of a run agree with its cursors, which are within the streams. -/
structure Kept (x : World ρ F × Notes ρ) (q : ρ) : Prop where
  placed : Placed ρ F x.1.streams (x.1.runners q)
  noted : Noted (x.1.runners q).lastIds (x.2.done q) (x.2.inside q)

theorem Kept.cursorBehind_iff {x : World ρ F × Notes ρ} {q : ρ} (h : Kept x q) :
    CursorBehind x q ↔ x.2.inside q = none := by
  constructor
  · intro hbehind
    cases hinside : x.2.inside q with
    | none => rfl
    | some e =>
      obtain ⟨hpos, heq, hnot⟩ := h.noted.stuck e hinside
      exact absurd (hbehind e.1 e.2 hpos heq.le) hnot
  · intro hinside s id hpos hle
    have hcase := h.noted.rest s id hpos hle
    rw [hinside] at hcase
    simpa using hcase

namespace Notes
variable (n : Notes ρ) {r q : ρ} (e : Stream × ℕ)

theorem enter_inside (r : ρ) : (n.enter r e).inside r = some e := Function.update_self _ _ _

theorem finish_done (r : ρ) : (n.finish r e).done r = e :: n.done r := Function.update_self _ _ _

theorem enter_of_ne (h : q ≠ r) :
    (n.enter r e).done q = n.done q ∧ (n.enter r e).inside q = n.inside q :=
  ⟨rfl, Function.update_of_ne h _ _⟩

theorem finish_of_ne (h : q ≠ r) :
    (n.finish r e).done q = n.done q ∧ (n.finish r e).inside q = n.inside q :=
  ⟨Function.update_of_ne h _ _, rfl⟩

theorem leave_of_ne (h : q ≠ r) :
    (n.leave r).done q = n.done q ∧ (n.leave r).inside q = n.inside q := by
  unfold leave
  split
  · exact ⟨Function.update_of_ne h _ _, Function.update_of_ne h _ _⟩
  · exact ⟨rfl, rfl⟩

theorem leave_inside (r : ρ) : (n.leave r).inside r = none := by
  unfold leave
  split
  · exact Function.update_self _ _ _
  · assumption

theorem noted_leave {lastIds : Stream → ℕ} (h : Noted lastIds (n.done r) (n.inside r)) :
    Noted lastIds ((n.leave r).done r) none := by
  unfold leave
  split
  · rename_i e hinside
    rw [hinside] at h
    exact n.finish_done e r ▸ h.leave
  · rename_i hinside
    rwa [hinside] at h

end Notes

namespace World
variable {w w' : World ρ F} {r q : ρ}

theorem handlePage_of_ne (hq : q ≠ r) (uuid : String) (s : Stream) (rest : List (ℕ × Fields))
    (w : World ρ F) (n : Notes ρ) :
    (handlePage r uuid s rest w).runners q = w.runners q ∧
      (notePage r uuid s rest w n).done q = n.done q ∧
      (notePage r uuid s rest w n).inside q = n.inside q := by
  induction rest generalizing w n with
  | nil =>
    refine ⟨?_, rfl, rfl⟩
    rw [handlePage, endPage]
    split
    · exact setRunner_of_ne hq _
    · split_ifs
      · exact setRunner_of_ne hq _
      · exact setRunner_of_ne hq _
  | cons e rest ih =>
    obtain ⟨id, raw⟩ := e
    cases hroute : route (w.runners r).orderSvc uuid w.memory s raw with
    | error exc =>
      simp only [handlePage, notePage, hroute]
      refine ⟨?_, n.enter_of_ne _ hq⟩
      rw [endRun, setRunner_of_ne hq, routed, setRunner_of_ne hq]
    | ok answer =>
      obtain ⟨m, _ | p⟩ := answer
      · simp only [handlePage, notePage, hroute]
        obtain ⟨hrunner, hdone, hinside⟩ :=
          ih (w.routed r s id m (.paging s rest)) (n.finish r (s, id))
        rw [hrunner, hdone, hinside, routed, setRunner_of_ne hq]
        exact ⟨rfl, n.finish_of_ne _ hq⟩
      · simp only [handlePage, notePage, hroute]
        exact ⟨setRunner_of_ne hq _, n.enter_of_ne _ hq⟩

/-- Going through a page keeps the notes in step with the cursor. The run is not inside of a body
afterwards exactly if it could get through every entry of the page at once. -/
theorem handlePage_noted (uuid : String) (s : Stream) (rest : List (ℕ × Fields)) (w : World ρ F)
    (n : Notes ρ) (hpage : IsPage (w.streams s) ((w.runners r).lastIds s) rest)
    (hnoted : Noted (w.runners r).lastIds (n.done r) none) (hinside : n.inside r = none) :
    Noted ((handlePage r uuid s rest w).runners r).lastIds
        ((notePage r uuid s rest w n).done r) ((notePage r uuid s rest w n).inside r) ∧
      ((notePage r uuid s rest w n).inside r = none ↔
        ∀ e ∈ rest, Immediate (w.runners r).orderSvc w.memory s e.2) := by
  induction rest generalizing w n with
  | nil =>
    rw [handlePage, lastIds_endPage, notePage, hinside]
    exact ⟨hnoted, by simp⟩
  | cons e rest ih =>
    obtain ⟨id, raw⟩ := e
    obtain ⟨rfl, -, hrest⟩ := hpage.head
    have hhead := route_eq_none_iff (w.runners r).orderSvc uuid w.memory s raw
    rw [List.forall_mem_cons, ← hhead]
    cases hroute : route (w.runners r).orderSvc uuid w.memory s raw with
    | error exc =>
      simp only [handlePage, notePage, hroute]
      rw [endRun, setRunner_self, routed, setRunner_self, Notes.enter_inside]
      exact ⟨hnoted.enter, by simp⟩
    | ok answer =>
      obtain ⟨m, _ | p⟩ := answer
      · simp only [handlePage, notePage, hroute]
        have hself : (w.routed r s ((w.runners r).lastIds s + 1) m (.paging s rest)).runners r =
            _ := setRunner_self _
        obtain ⟨hkept, hiff⟩ := ih (w.routed r s _ m (.paging s rest))
          (n.finish r (s, (w.runners r).lastIds s + 1))
          (by rw [hself]; simp only [Function.update_self]; exact hrest)
          (by rw [hself, Notes.finish_done]; exact hnoted.finish) hinside
        refine ⟨hkept, hiff.trans ?_⟩
        have htables := (Routed.of_route hroute).tables_eq
        simp only [hself]
        refine ⟨fun h => ⟨⟨m, rfl⟩, fun e he => ?_⟩, fun h e he => ?_⟩
        · exact (immediate_congr htables s e.2).mp (h e he)
        · exact (immediate_congr htables s e.2).mpr (h.2 e he)
      · simp only [handlePage, notePage, hroute]
        rw [routed, setRunner_self, Notes.enter_inside]
        exact ⟨hnoted.enter, by simp⟩

theorem step_note_cases {a : Action ρ} (n : Notes ρ) (h : step w a = some w') :
    (note w n a = n ∧ TakesImmediate (w, n) (.act a) ∧
      ∀ q, (w'.runners q).lastIds = (w.runners q).lastIds) ∨
    ∃ r uuid s rest, a = .resume r uuid ∧ (w.runners r).phase = .paging s rest ∧
      w' = handlePage r uuid s rest w ∧ note w n a = notePage r uuid s rest w (n.leave r) := by
  cases a with
  | start r =>
    simp only [step] at h
    split_ifs at h
    cases h
    exact Or.inl ⟨rfl, trivial, lastIds_setPhase _⟩
  | serve r =>
    simp only [step] at h
    split_ifs at h
    refine Or.inl ⟨rfl, trivial, ?_⟩
    unfold serve at h
    split at h
    · cases h
      exact lastIds_setPhase _
    · cases h
      exact lastIds_setPhase _
    · cases h
      exact lastIds_setPhase _
    · cases h
  | resume r uuid =>
    simp only [step] at h
    split_ifs at h
    unfold resume at h
    split at h
    · rename_i hphase
      refine Or.inl ⟨by simp only [note, hphase], fun s rest hpaging => ?_, ?_⟩
      · rw [hphase] at hpaging
        cases hpaging
      · split_ifs at h
        · cases h
          exact lastIds_endRun _
        · cases h
          exact lastIds_setPhase _
    · rename_i s rest hphase
      cases h
      exact Or.inr ⟨r, uuid, s, rest, rfl, hphase, rfl, by simp only [note, hphase]⟩
    · cases h
  | stop r =>
    cases h
    exact Or.inl ⟨rfl, trivial, fun _ => rfl⟩
  | fail r e =>
    simp only [step] at h
    split_ifs at h
    cases h
    exact Or.inl ⟨rfl, trivial, lastIds_endRun _⟩
  | crash r =>
    simp only [step] at h
    split_ifs at h
    cases h
    exact Or.inl ⟨rfl, trivial, lastIds_endRun _⟩

end World

variable {x y : World ρ F × Notes ρ} {i : Input ρ}

theorem kept_start (orders : ρ → Order F) (orderSvc : ρ → ℕ) (streams : Stream → List Fields)
    (q : ρ) : Kept (startNoted orders orderSvc streams) q := by
  refine ⟨⟨fun s => Nat.zero_le _, fun s rest hphase => (by cases hphase),
    fun s rest p hphase => (by cases hphase)⟩, fun e he => (by cases he),
    fun e he => (by cases he), fun s id hpos hle => ?_⟩
  have hzero : id ≤ 0 := hle
  omega

/-- A step keeps the notes in step with the cursors. A run that is not inside of a body before it is
not inside of one behind it exactly if it got through its page at once. -/
theorem stepNoted_kept (hx : ∀ q, Kept x q) (h : stepNoted x i = some y) :
    (∀ q, Kept y q) ∧ ((∀ q, x.2.inside q = none) →
      ((∀ q, y.2.inside q = none) ↔ TakesImmediate x i)) := by
  cases i with
  | write p =>
    cases h
    refine ⟨fun q => ⟨(hx q).placed.grow fun s => ?_, (hx q).noted⟩, fun hnone => ?_⟩
    · rw [World.streams_xadd]
      exact List.prefix_append _ _
    · exact ⟨fun _ => trivial, fun _ => hnone⟩
  | act a =>
    obtain ⟨w, n⟩ := x
    obtain ⟨w', hstep, rfl⟩ := Option.map_eq_some_iff.mp h
    have hplaced : ∀ q, Placed ρ F w'.streams (w'.runners q) :=
      World.step_invariant (I := fun u => ∀ q, Placed ρ F u.streams (u.runners q))
        (fun _ _ hu hsub => hsub.placed hu) (fun q => (hx q).placed) hstep
    rcases World.step_note_cases n hstep with
      ⟨hnote, htakes, hids⟩ | ⟨r, uuid, s, rest, rfl, hphase, rfl, hnote⟩
    · refine ⟨fun q => ⟨hplaced q, ?_⟩, fun hnone => ?_⟩
      · rw [hnote, hids]
        exact (hx q).noted
      · rw [hnote]
        exact ⟨fun _ => htakes, fun _ => hnone⟩
    · have hpage := World.handlePage_noted uuid s rest w (n.leave r)
        ((hx r).placed.paging s rest hphase) (n.noted_leave (hx r).noted) (n.leave_inside r)
      have hother {q : ρ} (hq : q ≠ r) :=
        World.handlePage_of_ne hq uuid s rest w (n.leave r)
      refine ⟨fun q => ⟨hplaced q, ?_⟩, fun hnone => ?_⟩
      · rw [hnote]
        by_cases hq : q = r
        · subst hq
          exact hpage.1
        · obtain ⟨hrunner, hdone, hinside⟩ := hother hq
          rw [hrunner, hdone, hinside, (n.leave_of_ne hq).1, (n.leave_of_ne hq).2]
          exact (hx q).noted
      · have htakes : TakesImmediate (w, n) (.act (.resume r uuid)) ↔
            ∀ e ∈ rest, Immediate (w.runners r).orderSvc w.memory s e.2 := by
          refine ⟨fun h => h s rest hphase, fun h s' rest' hphase' => ?_⟩
          obtain ⟨rfl, rfl⟩ := Phase.paging.inj (hphase.symm.trans hphase')
          exact h
        rw [hnote, htakes, ← hpage.2]
        refine ⟨fun h => h r, fun h q => ?_⟩
        by_cases hq : q = r
        · rw [hq]
          exact h
        · rw [(hother hq).2.2, (n.leave_of_ne hq).2]
          exact hnone q

/-- Any number of runs, over streams with whatever content, to which others append too: no cursor
is ever ahead of the work exactly if the runs get through every page that they take up at once. In
every state a cursor is ahead of the work exactly if its run is inside of the body for an entry. That
one is at the cursor, and every other entry up to the cursors has been handled completely. -/
theorem cursorBehind_iff_takesImmediate (orders : ρ → Order F) (orderSvc : ρ → ℕ)
    (streams : Stream → List Fields) {inputs : List (Input ρ)}
    (hr : run stepNoted (startNoted orders orderSvc streams) inputs = some x) :
    (Along stepNoted TakesImmediate (startNoted orders orderSvc streams) inputs ↔
      Throughout stepNoted (fun y => ∀ r, CursorBehind y r) (startNoted orders orderSvc streams)
        inputs) ∧
    ∀ r, (CursorBehind x r ↔ x.2.inside r = none) ∧
      ∀ e, x.2.inside r = some e → e.2 = (x.1.runners r).lastIds e.1 ∧
        ∀ s id, 1 ≤ id → id ≤ (x.1.runners r).lastIds s → (s, id) ≠ e → (s, id) ∈ x.2.done r := by
  have hkept : ∀ q, Kept x q := run_invariant_of_step (I := fun y => ∀ q, Kept y q)
    (fun y i z hy h => (stepNoted_kept hy h).1) (kept_start orders orderSvc streams) hr
  constructor
  · have hbehind {y : World ρ F × Notes ρ} (hy : ∀ q, Kept y q) :
        (∀ q, CursorBehind y q) ↔ ∀ q, y.2.inside q = none :=
      forall_congr' fun q => (hy q).cursorBehind_iff
    refine along_iff_throughout (I := fun y => ∀ q, Kept y q)
      (fun y i z hy h => (stepNoted_kept hy h).1) (fun y i z hy hbefore h => ?_)
      (kept_start orders orderSvc streams) ?_ hr
    · obtain ⟨hz, hiff⟩ := stepNoted_kept hy h
      rw [hbehind hz, hiff ((hbehind hy).mp hbefore)]
    · exact (hbehind (kept_start orders orderSvc streams)).mpr fun _ => rfl
  · intro r
    refine ⟨(hkept r).cursorBehind_iff, fun e he => ⟨((hkept r).noted.stuck e he).2.1, ?_⟩⟩
    intro s id hpos hle hne
    refine ((hkept r).noted.rest s id hpos hle).resolve_right fun hin => hne ?_
    exact (Option.some.inj (he.symm.trans hin)).symm

/-- An event that the runner passes by. -/
def cancelledEntry : Fields := encodeFields [("event_type", "OrderCancelled"), ("order_id", "o-9")]

/-- One entry on the orders stream. -/
def holding (raw : Fields) : Stream → List Fields
  | .orders => [raw]
  | _ => []

/-- A run up to its first page: it has started and entered the loop, and Redis has answered. -/
def readsPage {ρ : Type} (r : ρ) : List (Input ρ) :=
  [.act (.start r), .act (.serve r), .act (.resume r "uuid"), .act (.serve r)]

/-- A run that has taken up its own `OrderCreated` behind another entry. -/
theorem cancelled_done_created_open :
    Throughout stepNoted (fun y => ∀ r, CursorBehind y r)
      (startNoted (orderOf (n := 1)) (fun _ => 0) (holding cancelledEntry)) (readsPage 0) ∧
    ∃ x, run stepNoted (startNoted (orderOf (n := 1)) (fun _ => 0) (holding cancelledEntry))
        (readsPage 0 ++ [.act (.resume 0 "uuid")]) = some x ∧
      x.2.inside 0 = some (.orders, 2) ∧ (.orders, 1) ∈ x.2.done 0 := by
  constructor
  · have hread := cursorBehind_iff_takesImmediate (orderOf (n := 1)) (fun _ => 0)
      (holding cancelledEntry) (show run stepNoted _ (readsPage 0) = some _ from rfl)
    refine hread.1.mp ((along_cons rfl).mpr ⟨trivial, (along_cons rfl).mpr ⟨trivial, ?_⟩⟩)
    refine (along_cons rfl).mpr ⟨fun s rest hphase => ?_, (along_cons rfl).mpr ⟨trivial, trivial⟩⟩
    cases hphase
  · have htaken := cursorBehind_iff_takesImmediate (orderOf (n := 1)) (fun _ => 0)
      (holding cancelledEntry)
      (show run stepNoted _ (readsPage 0 ++ [.act (.resume 0 "uuid")]) = some _ from rfl)
    refine ⟨_, rfl, rfl, ?_⟩
    exact ((htaken.2 0).2 (.orders, 2) rfl).2 .orders 1 le_rfl (by decide) (by decide)

/-- A single run on empty streams that has taken up its own `OrderCreated`: the cursor stands at the
event while the `XADD` of the payment service is outstanding, and stays there when it raises. -/
theorem cursor_ahead_of_suspended_handler :
    ∃ x, run stepNoted (startNoted (orderOf (n := 1)) (fun _ => 0) fun _ => [])
        (readsPage 0 ++ [.act (.resume 0 "uuid")]) = some x ∧
      (x.1.runners 0).lastIds .orders = 1 ∧ ¬ CursorBehind x 0 ∧
      ∀ e, ∃ y, stepNoted x (.act (.fail 0 e)) = some y ∧
        (y.1.runners 0).lastIds .orders = 1 ∧ ¬ CursorBehind y 0 := by
  refine ⟨_, rfl, rfl, fun h => ?_, fun e => ⟨_, rfl, rfl, fun h => ?_⟩⟩
  · cases h .orders 1 le_rfl le_rfl
  · cases h .orders 1 le_rfl le_rfl

end Saga
