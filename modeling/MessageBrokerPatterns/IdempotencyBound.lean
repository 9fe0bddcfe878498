import MessageBrokerPatterns.IdempotencyMemory

/-!
# The dictionary of the in-memory store stays within one window

A `Journal` is the store together with all its recordings, the latest last. Reading a key can only
drop it, and a recording sweeps every expired entry, also one that raises. So each entry comes from a
recording of its key and expires after the latest recording of any key, and the recordings of the
window that ends there are enough to account for every entry.
-/

namespace IdempotencyStore
open PyText PyDict

namespace InMemoryIdempotencyStore
variable {store : InMemoryIdempotencyStore} {key key' : String} {now expiresAt : ℤ}

theorem get?_of_get?_isLive (h : get? (store.isLive key now).2.expiry key' = some expiresAt) :
    get? store.expiry key' = some expiresAt := by
  cases hread : get? store.expiry key with
  | none => simpa only [isLive, hread] using h
  | some e =>
    by_cases hlt : now < e
    · simpa only [isLive, hread, if_pos hlt] using h
    · simp only [isLive, hread, if_neg hlt, get?_erase] at h
      split_ifs at h
      exact h

theorem get?_purgeExpired_eq_some :
    get? (store.purgeExpired now).expiry key = some expiresAt ↔
      get? store.expiry key = some expiresAt ∧ now < expiresAt := by
  rw [purgeExpired, get?_foldl_erase]
  by_cases h : key ∈ keys (store.expiry.filter fun e => e.2 ≤ now)
  · rw [if_pos h]
    obtain ⟨e, he, hle⟩ := (mem_expired_iff store now key).mp h
    simp only [he, Option.some.injEq, reduceCtorEq, false_iff]
    rintro ⟨rfl, hlt⟩
    omega
  · rw [if_neg h]
    rw [mem_expired_iff] at h
    constructor
    · intro he
      refine ⟨he, ?_⟩
      by_contra hlt
      exact h ⟨expiresAt, he, by omega⟩
    · exact fun he => he.1

theorem get?_record_eq_some (hdate : now + store.ttl.val ≤ datetimeMax) :
    get? (store.record key now).2.expiry key' = some expiresAt ↔
      if key = key' then now + store.ttl.val = expiresAt
      else get? store.expiry key' = some expiresAt ∧ now < expiresAt := by
  rw [record_of_le hdate, get?_assign]
  split_ifs with h
  · exact Option.some_inj
  · exact get?_purgeExpired_eq_some

/-- The store `s'` has lost some entries of `s` and kept the others. -/
structure Shrinks (s s' : InMemoryIdempotencyStore) : Prop where
  ttl_eq : s'.ttl = s.ttl
  get? : ∀ key expiresAt, PyDict.get? s'.expiry key = some expiresAt →
    PyDict.get? s.expiry key = some expiresAt

theorem shrinks_refl (store : InMemoryIdempotencyStore) : Shrinks store store :=
  ⟨rfl, fun _ _ h => h⟩

theorem shrinks_isLive (store : InMemoryIdempotencyStore) (key : String) (now : ℤ) :
    Shrinks store (store.isLive key now).2 :=
  ⟨isLive_ttl store key now, fun _ _ h => get?_of_get?_isLive h⟩

theorem Shrinks.purgeExpired {s s' : InMemoryIdempotencyStore} (h : Shrinks s s') (now : ℤ) :
    Shrinks s (s'.purgeExpired now) :=
  ⟨h.ttl_eq, fun key expiresAt hg => h.get? key expiresAt (get?_purgeExpired_eq_some.mp hg).1⟩

end InMemoryIdempotencyStore

def recordedKey : Request → Answer → Option String
  | .call (.markProcessed key), .none => some key
  | .call (.markIfNew key), .bool true => some key
  | _, _ => none

/-- The store and every recording it has made, the latest last. -/
structure Journal where
  store : InMemoryIdempotencyStore
  recordings : List (ℤ × String) := []

namespace Journal
open InMemoryIdempotencyStore

def request (w : Journal) (r : ℤ × Request) : Journal :=
  let (answer, store) := w.store.request r
  ⟨store, w.recordings ++ ((recordedKey r.2 answer).map fun key => (r.1, key)).toList⟩

def run (w : Journal) (requests : List (ℤ × Request)) : Journal := requests.foldl request w

/-- The keys recorded in the window of length `ttl` that ends at the latest recording. -/
def windowKeys (ttl : Ttl) (recordings : List (ℤ × String)) : Finset String :=
  match recordings.getLast? with
  | none => ∅
  | some latest =>
    ((recordings.filter fun r => latest.1 - ttl.val < r.1 ∧ r.1 ≤ latest.1).map Prod.snd).toFinset

theorem request_cases (w : Journal) (now : ℤ) (r : Request) :
    (recordedKey r (w.store.request (now, r)).1 = none ∧
        (w.request (now, r)).recordings = w.recordings ∧
        Shrinks w.store (w.request (now, r)).store) ∨
      ∃ key read, recordedKey r (w.store.request (now, r)).1 = some key ∧
        (w.request (now, r)).recordings = w.recordings ++ [(now, key)] ∧
        Shrinks w.store read ∧ now + read.ttl.val ≤ datetimeMax ∧
        (w.request (now, r)).store = (read.record key now).2 := by
  cases r with
  | size => exact Or.inl ⟨rfl, List.append_nil _, shrinks_refl _⟩
  | call c =>
    cases c with
    | isProcessed key => exact Or.inl ⟨rfl, List.append_nil _, shrinks_isLive _ key now⟩
    | markProcessed key =>
      have hrequest : w.store.request (now, .call (.markProcessed key)) =
          (w.store.record key now).map (Answer.ofExcept fun _ => .none) id := rfl
      rcases le_or_gt (now + w.store.ttl.val) datetimeMax with hdate | hdate
      · refine Or.inr ⟨key, w.store, ?_, ?_, shrinks_refl _, hdate, ?_⟩
        · rw [hrequest, record_of_le hdate]
          rfl
        · rw [request, hrequest, record_of_le hdate]
          rfl
        · rw [request, hrequest]
          rfl
      · rw [request, hrequest, record_of_lt hdate]
        exact Or.inl ⟨rfl, List.append_nil _, (shrinks_refl _).purgeExpired now⟩
    | markIfNew key =>
      have hrequest : w.store.request (now, .call (.markIfNew key)) =
          (w.store.markIfNew now key).map (Answer.ofExcept Answer.bool) id := rfl
      have hread := shrinks_isLive w.store key now
      cases hlive : (w.store.isLive key now).1 with
      | true =>
        rw [request, hrequest, markIfNew_of_live hlive]
        exact Or.inl ⟨rfl, List.append_nil _, hread⟩
      | false =>
        rcases le_or_gt (now + (w.store.isLive key now).2.ttl.val) datetimeMax with hdate | hdate
        · refine Or.inr ⟨key, _, ?_, ?_, hread, hdate, ?_⟩
          · rw [hrequest, markIfNew_of_not_live hlive, record_of_le hdate]
            rfl
          · rw [request, hrequest, markIfNew_of_not_live hlive, record_of_le hdate]
            rfl
          · rw [request, hrequest, markIfNew_of_not_live hlive]
            rfl
        · rw [request, hrequest, markIfNew_of_not_live hlive, record_of_lt hdate]
          exact Or.inl ⟨rfl, List.append_nil _, hread.purgeExpired now⟩

/-- Every entry comes from a recording of its key and expires after the latest recording. -/
structure Accounted (ttl : Ttl) (w : Journal) : Prop where
  ttl_eq : w.store.ttl = ttl
  recorded : ∀ key expiresAt, get? w.store.expiry key = some expiresAt →
    (expiresAt - ttl.val, key) ∈ w.recordings
  unexpired : ∀ key expiresAt, get? w.store.expiry key = some expiresAt →
    ∀ latest ∈ w.recordings.getLast?, latest.1 < expiresAt

theorem accounted_empty (ttl : Ttl) : Accounted ttl ⟨.empty ttl, []⟩ := by
  refine ⟨rfl, fun key expiresAt h => ?_, fun key expiresAt h => ?_⟩
  · cases h
  · cases h

theorem accounted_request {ttl : Ttl} {w : Journal} (h : Accounted ttl w) (now : ℤ) (r : Request) :
    Accounted ttl (w.request (now, r)) := by
  obtain ⟨-, hrec, hshrinks⟩ | ⟨key, read, -, hrec, hread, hdate, hstore⟩ := request_cases w now r
  · constructor
    · rw [hshrinks.ttl_eq, h.ttl_eq]
    · intro key expiresAt he
      rw [hrec]
      exact h.recorded key expiresAt (hshrinks.get? key expiresAt he)
    · intro key expiresAt he
      rw [hrec]
      exact h.unexpired key expiresAt (hshrinks.get? key expiresAt he)
  · have httl : read.ttl = ttl := hread.ttl_eq.trans h.ttl_eq
    constructor
    · rw [hstore, record_of_le hdate]
      exact httl
    · intro key' expiresAt he
      rw [hstore, get?_record_eq_some hdate, httl] at he
      rw [hrec]
      split_ifs at he with hkey
      · subst hkey he
        rw [Int.add_sub_cancel]
        exact List.mem_append_right _ (List.mem_singleton_self _)
      · exact List.mem_append_left _ (h.recorded key' expiresAt (hread.get? key' expiresAt he.1))
    · intro key' expiresAt he latest hlatest
      rw [hrec, List.getLast?_concat, Option.mem_some_iff] at hlatest
      subst hlatest
      rw [hstore, get?_record_eq_some hdate, httl] at he
      split_ifs at he
      · have := ttl.property
        change now < expiresAt
        omega
      · exact he.2

theorem accounted_run {ttl : Ttl} {w : Journal} (h : Accounted ttl w)
    (requests : List (ℤ × Request)) : Accounted ttl (w.run requests) := by
  induction requests generalizing w with
  | nil => exact h
  | cons r requests ih => exact ih (accounted_request h r.1 r.2)

/-- The recordings are made at the instants of the requests, in their order. -/
theorem recordings_run (w : Journal) (requests : List (ℤ × Request)) :
    ∃ made, (w.run requests).recordings = w.recordings ++ made ∧
      (made.map Prod.fst).Sublist (requests.map Prod.fst) := by
  induction requests generalizing w with
  | nil => exact ⟨[], (List.append_nil _).symm, .slnil⟩
  | cons r requests ih =>
    obtain ⟨made, hmade, hsub⟩ := ih (w.request r)
    obtain ⟨-, hrec, -⟩ | ⟨key, _, -, hrec, -⟩ := request_cases w r.1 r.2
    · exact ⟨made, by rw [← hrec]; exact hmade, hsub.cons _⟩
    · refine ⟨(r.1, key) :: made, ?_, hsub.cons_cons _⟩
      rw [List.append_cons, ← hrec]
      exact hmade

theorem le_getLast?_of_pairwise {recordings : List (ℤ × String)}
    (hmono : (recordings.map Prod.fst).Pairwise (· ≤ ·)) {latest : ℤ × String}
    (hlatest : recordings.getLast? = some latest) {r : ℤ × String} (hr : r ∈ recordings) :
    r.1 ≤ latest.1 := by
  obtain ⟨earlier, rfl⟩ := List.getLast?_eq_some_iff.mp hlatest
  rw [List.map_append, List.pairwise_append] at hmono
  rcases List.mem_append.mp hr with hr | hr
  · exact hmono.2.2 _ (List.mem_map_of_mem hr) _ (List.mem_singleton_self _)
  · rw [List.mem_singleton.mp hr]

theorem Accounted.mem_windowKeys {ttl : Ttl} {w : Journal} (h : Accounted ttl w)
    (hmono : (w.recordings.map Prod.fst).Pairwise (· ≤ ·)) {key : String}
    (hkey : key ∈ keys w.store.expiry) : key ∈ windowKeys ttl w.recordings := by
  obtain ⟨⟨k, expiresAt⟩, hmem, rfl⟩ := List.mem_map.mp hkey
  have hget := (mem_iff_get? w.store.nodup).mp hmem
  have hrec := h.recorded _ _ hget
  cases hlast : w.recordings.getLast? with
  | none =>
    rw [List.getLast?_eq_none_iff.mp hlast] at hrec
    cases hrec
  | some latest =>
    have hle := le_getLast?_of_pairwise hmono hlast hrec
    have hlt := h.unexpired _ _ hget latest hlast
    rw [windowKeys, hlast]
    refine List.mem_toFinset.mpr (List.mem_map.mpr ⟨_, List.mem_filter.mpr ⟨hrec, ?_⟩, rfl⟩)
    simp only [decide_eq_true_eq]
    exact ⟨by omega, hle⟩

theorem Accounted.length_le {ttl : Ttl} {w : Journal} (h : Accounted ttl w)
    (hmono : (w.recordings.map Prod.fst).Pairwise (· ≤ ·)) :
    w.store.expiry.length ≤ (windowKeys ttl w.recordings).card := by
  have hcard : (keys w.store.expiry).toFinset.card = w.store.expiry.length := by
    rw [List.toFinset_card_of_nodup w.store.nodup, keys, List.length_map]
  rw [← hcard]
  apply Finset.card_le_card
  intro key hkey
  exact h.mem_windowKeys hmono (List.mem_toFinset.mp hkey)

/-- For every accepted `ttl` and every run of calls under a clock that does not go backwards, the
dictionary has at most one entry for each key recorded in the window that ends at the latest
recording, and a request that has just recorded leaves no expired entry. -/
theorem run_within_window (ttl : ℤ) (hpos : 0 < ttl) :
    ∃ store, InMemoryIdempotencyStore.new ttl = .ok store ∧
      ∀ requests : List (ℤ × Request), (requests.map Prod.fst).Pairwise (· ≤ ·) →
        (run ⟨store, []⟩ requests).store.expiry.length ≤
            (windowKeys ⟨ttl, hpos⟩ (run ⟨store, []⟩ requests).recordings).card ∧
          ∀ before now r, requests = before ++ [(now, r)] →
            (recordedKey r ((run ⟨store, []⟩ before).store.request (now, r)).1).isSome →
            ∀ e ∈ (run ⟨store, []⟩ requests).store.expiry, now < e.2 := by
  refine ⟨.empty ⟨ttl, hpos⟩, ?_, ?_⟩
  · rw [InMemoryIdempotencyStore.new, validateTtl_of_pos hpos]
    rfl
  · intro requests hmono
    have hacc := accounted_run (accounted_empty ⟨ttl, hpos⟩) requests
    obtain ⟨made, hmade, hsub⟩ := recordings_run ⟨.empty ⟨ttl, hpos⟩, []⟩ requests
    constructor
    · apply hacc.length_le
      rw [hmade]
      exact hmono.sublist hsub
    · rintro before now r rfl hsome e he
      have hrun : run ⟨.empty ⟨ttl, hpos⟩, []⟩ (before ++ [(now, r)]) =
          (run ⟨.empty ⟨ttl, hpos⟩, []⟩ before).request (now, r) := by
        rw [run, List.foldl_append, List.foldl_cons, List.foldl_nil, run]
      have hget := (mem_iff_get? (run ⟨.empty ⟨ttl, hpos⟩, []⟩ (before ++ [(now, r)])).store.nodup).mp he
      obtain ⟨hnone, -, -⟩ | ⟨key, _, -, hrec, -⟩ :=
        request_cases (run ⟨.empty ⟨ttl, hpos⟩, []⟩ before) now r
      · rw [hnone] at hsome
        cases hsome
      · apply hacc.unexpired _ _ hget (now, key)
        rw [hrun, hrec, List.getLast?_concat]
        exact rfl

/-- Two keys marked together, one of them marked again; they are swept when their window is over. -/
theorem run_within_window_marked_again : ∃ store, InMemoryIdempotencyStore.new 10 = .ok store ∧
    (run ⟨store, []⟩ [(0, .call (.markProcessed "a")), (0, .call (.markIfNew "b")),
      (5, .call (.markProcessed "a")), (10, .call (.markIfNew "c"))]).store.expiry.length ≤
      (windowKeys ⟨10, by decide⟩ (run ⟨store, []⟩ [(0, .call (.markProcessed "a")),
        (0, .call (.markIfNew "b")), (5, .call (.markProcessed "a")),
        (10, .call (.markIfNew "c"))]).recordings).card := by
  obtain ⟨store, hnew, h⟩ := run_within_window 10 (by decide)
  exact ⟨store, hnew, (h _ (by decide)).1⟩

end Journal
end IdempotencyStore
