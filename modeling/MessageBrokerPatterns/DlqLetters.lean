import MessageBrokerPatterns.DlqDrain
import MessageBrokerPatterns.DlqStranded

/-!
# Dead letters and the entries they come from

`letters` pairs every entry of the dead-letter stream with the id of the entry it was produced
from. With consumers coming, going and crashing anywhere, also between the two commands of
`move_to_dlq`, an entry has at most one letter, and none while it is pending.
-/

namespace Dlq
open PyText PyDict RedisStream ActionRun

def Event.letter : Event → Option (ℕ × Fields)
  | .deadLettered _ id p reason attempt => some (id, encodeFields (p.dlqFields reason attempt))
  | _ => none

theorem Event.map_snd_letter (e : Event) : e.letter.map Prod.snd = e.deadLetter := by
  cases e <;> rfl

theorem Event.finishes_of_letter {e : Event} {id : ℕ} {f : Fields} (h : e.letter = some (id, f)) :
    e.finishes id = true := by
  cases e with
  | deadLettered c i p reason attempt =>
    cases h
    simp [finishes, settles]
  | handled _ _ _ _ => cases h
  | processed _ _ _ => cases h
  | skipped _ _ _ => cases h
  | lost _ _ _ => cases h

/-- The letter is that of the payment in the entry with the id. -/
def Server.LetterOf (s : Server) (e : ℕ × Fields) : Prop :=
  ∃ f p reason attempt, entryAt s.main.entries e.1 = some f ∧ Payment.fromFields f = .ok p ∧
    e.2 = encodeFields (p.dlqFields reason attempt)

theorem Server.LetterOf.mono {s s' : Server} (hle : s.Le s') {e : ℕ × Fields} (h : s.LetterOf e) :
    s'.LetterOf e := by
  obtain ⟨f, p, reason, attempt, hf, hp, he⟩ := h
  exact ⟨f, p, reason, attempt, hle.entries _ _ hf, hp, he⟩

theorem Move.letter {c : String} {k k' : Consumer} {s s' : Server} {evs : List Event}
    (h : Move c k s k' s' evs) (hf : k.Faithful s) :
    ∀ e ∈ evs.filterMap Event.letter, s'.LetterOf e := by
  cases h with
  | dlqAdd m reason attempt hpc =>
    intro e he
    cases List.mem_singleton.mp he
    obtain ⟨⟨f, hf, hp⟩, -⟩ := hf.busy hpc
    exact ⟨f, m.payment, reason, attempt, hf, hp, rfl⟩
  | _ => simp [Event.letter]

namespace World

def letters (w : World) : List (ℕ × Fields) := w.trace.filterMap Event.letter

structure LetterInv (w : World) : Prop where
  fate : FateInv w
  letters : w.letters.map Prod.snd = w.server.dlq
  source : ∀ e ∈ w.letters, w.server.LetterOf e

theorem letterInv_init : LetterInv {} := ⟨fateInv_init, rfl, fun e he => by cases he⟩

theorem map_snd_letters (tr : List Event) :
    (tr.filterMap Event.letter).map Prod.snd = tr.filterMap Event.deadLetter := by
  rw [List.map_filterMap]
  congr 1
  funext e
  exact e.map_snd_letter

theorem LetterInv.frame {w w' : World} (h : LetterInv w) (hfate : FateInv w')
    (hle : w.server.Le w'.server) (hq : w'.server.dlq = w.server.dlq)
    (ht : w'.letters = w.letters) : LetterInv w' :=
  ⟨hfate, by rw [ht, hq, h.letters], fun e he => (h.source e (ht ▸ he)).mono hle⟩

theorem letters_crash (w : World) (c : String) (k : Consumer) (ko : Option Consumer) :
    World.letters { (w.setConsumer c ko) with trace := w.trace ++ crashEvents c k } = w.letters := by
  have hnone : (crashEvents c k).filterMap Event.letter = [] := by
    unfold crashEvents
    split
    · rfl
    · rfl
  rw [letters, List.filterMap_append, hnone, List.append_nil]
  rfl

theorem letterInv_step (w : World) (a : Action) (w' : World) (h : LetterInv w)
    (hw : step w a = some w') : LetterInv w' := by
  have hfate := fateInv_step w a w' h.fate hw
  cases Effect.of_step hw with
  | publish p =>
    have hle := Server.Le.xadd w.server (encodeFields p.toFields)
    exact h.frame hfate ⟨hle.entries, fun _ h => h, fun _ h => h⟩ rfl rfl
  | xadd f => exact h.frame hfate (Server.Le.xadd w.server f) rfl rfl
  | start c maxAttempts count hend => exact h.frame hfate (Server.Le.refl _) rfl rfl
  | stop c k hk hpc => exact h.frame hfate (Server.Le.refl _) rfl rfl
  | move _ c k k' s' evs _ hk hm =>
    have hletters : (w.moved c k' s' evs).letters =
        w.letters ++ evs.filterMap Event.letter := List.filterMap_append
    constructor
    · exact hfate
    · rw [hletters, List.map_append, h.letters, map_snd_letters]
      exact hm.reports.1.symm
    · intro e he
      rw [hletters, List.mem_append] at he
      rcases he with he | he
      · exact (h.source e he).mono hm.le
      · exact hm.letter (h.fate.faithful c k hk) e he
  | crash c k hk hend =>
    exact h.frame hfate (Server.Le.refl _) rfl (letters_crash w c k none)

theorem FateInv.finished_le_one {w : World} (h : FateInv w) {id : ℕ} (hid : 1 ≤ id) :
    w.finished id ≤ 1 := by
  by_cases ho : w.Open id
  · rw [h.opened id ho]
    exact Nat.zero_le 1
  · rw [h.closed id hid ho]

theorem count_letters_le (w : World) (id : ℕ) :
    (w.letters.map Prod.fst).count id ≤ w.finished id := by
  rw [finished, letters]
  induction w.trace with
  | nil => exact le_rfl
  | cons e tr ih =>
    rw [List.countP_cons]
    cases he : e.letter with
    | none =>
      rw [List.filterMap_cons_none he]
      omega
    | some l =>
      rw [List.filterMap_cons_some he, List.map_cons, List.count_cons]
      by_cases hl : l.1 = id
      · subst hl
        rw [Event.finishes_of_letter he]
        simpa using ih
      · simp only [beq_iff_eq, hl, if_false, Nat.add_zero]
        omega

theorem LetterInv.one_le {w : World} (h : LetterInv w) {id : ℕ} (hid : id ∈ w.letters.map Prod.fst) :
    1 ≤ id := by
  obtain ⟨e, he, rfl⟩ := List.mem_map.mp hid
  obtain ⟨f, p, reason, attempt, hf, -⟩ := h.source e he
  exact (entryAt_some_le hf).1

/-- Every dead letter comes from an entry of its own, which is not pending. -/
theorem letter_of_own_acked_entry (actions : List Action) (w : World)
    (hrun : run step {} actions = some w) :
    w.letters.map Prod.snd = w.server.dlq ∧ (w.letters.map Prod.fst).Nodup ∧
      ∀ e ∈ w.letters, w.server.LetterOf e ∧ w.server.main.owner? e.1 = none := by
  have h : LetterInv w := run_invariant_of_step letterInv_step letterInv_init hrun
  refine ⟨h.letters, ?_, fun e he => ⟨h.source e he, ?_⟩⟩
  · rw [List.nodup_iff_count_le_one]
    intro id
    by_cases hid : id ∈ w.letters.map Prod.fst
    · exact (count_letters_le w id).trans (h.fate.finished_le_one (h.one_le hid))
    · rw [List.count_eq_zero.mpr hid]
      exact Nat.zero_le 1
  · have hcount := count_letters_le w e.1
    have hpos : 0 < (w.letters.map Prod.fst).count e.1 :=
      List.count_pos_iff.mpr (List.mem_map_of_mem he)
    cases ho : w.server.main.owner? e.1 with
    | none => rfl
    | some d =>
      have hopen : w.Open e.1 := by
        apply Or.inl
        apply Or.inr
        rw [ho]
        rfl
      rw [h.fate.opened e.1 hopen] at hcount
      omega

/-- A consumer crashes between the commands of `move_to_dlq`; its successor finds nothing. -/
theorem letter_of_own_acked_entry_crash :
    ∃ w, run step {} [.publish rent, .publish rent, .start "c" 1 1, .run "c", .run "c",
        .handler "c" (some ⟨"PaymentError", "declined"⟩), .run "c", .crash "c", .start "c" 1 1,
        .run "c", .run "c", .handler "c" (some ⟨"PaymentError", "declined"⟩), .run "c", .run "c"] =
          some w ∧ w.letters.map Prod.fst = [2] ∧ w.server.dlq.length = 1 ∧
      ∀ e ∈ w.letters, w.server.LetterOf e ∧ w.server.main.owner? e.1 = none := by
  obtain ⟨w, hw, hl, hq⟩ : ∃ w, run step {} [.publish rent, .publish rent, .start "c" 1 1,
      .run "c", .run "c", .handler "c" (some ⟨"PaymentError", "declined"⟩), .run "c", .crash "c",
      .start "c" 1 1, .run "c", .run "c", .handler "c" (some ⟨"PaymentError", "declined"⟩),
      .run "c", .run "c"] = some w ∧ w.letters.map Prod.fst = [2] ∧
        w.server.dlq.length = 1 := ⟨_, rfl, rfl, rfl⟩
  exact ⟨w, hw, hl, hq, (letter_of_own_acked_entry _ w hw).2.2⟩

end World
end Dlq
