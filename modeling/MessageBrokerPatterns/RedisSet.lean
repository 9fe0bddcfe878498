import Mathlib.Data.Finset.Insert

/-!
# A Redis set with an expiry

A key of the server holds no value or a set, which is never empty and may carry the instant it
expires at. Instants count microseconds of the server's clock. `sadd` creates the set without an
expiry, `pexpire` sets an expiry in milliseconds; with `nx` it does so only on a set that has
none, and an expiry that is not in the future deletes the set. From its expiry on a set may be
dropped, which `evict` does.
-/

namespace RedisSet
variable {κ : Type*}

structure Value (κ : Type*) where
  members : Finset κ
  expiresAt : Option ℤ
  nonempty : members.Nonempty

abbrev Entry (κ : Type*) := Option (Value κ)

def expiry (entry : Entry κ) : Option ℤ := entry.bind Value.expiresAt

def due (now : ℤ) (entry : Entry κ) : Bool := (expiry entry).any fun e => e ≤ now

def evict (now : ℤ) (entry : Entry κ) : Entry κ := if due now entry then none else entry

/-- `PEXPIRE key millis` with whether it took effect. -/
def pexpire (now : ℤ) (entry : Entry κ) (millis : ℤ) (nx : Bool) : Bool × Entry κ :=
  match entry with
  | none => (false, none)
  | some v =>
    if nx ∧ v.expiresAt.isSome then (false, some v)
    else if millis ≤ 0 then (true, none)
    else (true, some ⟨v.members, some (now + millis * 1000), v.nonempty⟩)

@[simp] theorem expiry_none : expiry (none : Entry κ) = none := rfl

theorem evict_of_not_due {now : ℤ} {entry : Entry κ} (h : due now entry = false) :
    evict now entry = entry := by simp [evict, h]

/-- An expiry that is set stays, and with `nx` a further one has no effect. -/
theorem pexpire_nx_of_isSome {entry : Entry κ} (h : (expiry entry).isSome) (now millis : ℤ) :
    pexpire now entry millis true = (false, entry) := by
  cases entry with
  | none => cases h
  | some v =>
    have hv : v.expiresAt.isSome := h
    simp [pexpire, hv]

theorem pexpire_nx_of_pos {v : Value κ} (h : v.expiresAt = none) (now : ℤ) {millis : ℤ}
    (hpos : 0 < millis) : pexpire now (some v) millis true =
      (true, some ⟨v.members, some (now + millis * 1000), v.nonempty⟩) := by
  simp [pexpire, h, not_le.mpr hpos]

theorem pexpire_nx_of_nonpos {v : Value κ} (h : v.expiresAt = none) (now : ℤ) {millis : ℤ}
    (hle : millis ≤ 0) : pexpire now (some v) millis true = (true, none) := by
  simp [pexpire, h, hle]

/-- After `PEXPIRE NX` the key is gone or expires as before or after the given time. -/
theorem pexpire_nx_cases (now : ℤ) (entry : Entry κ) (millis : ℤ) :
    (pexpire now entry millis true).2 = none ∨
      ∃ e, expiry (pexpire now entry millis true).2 = some e ∧
        (expiry entry = some e ∨ e = now + millis * 1000) := by
  cases entry with
  | none => exact Or.inl rfl
  | some v =>
    cases hv : v.expiresAt with
    | some e =>
      have hsome : (expiry (some v)).isSome := by simp [expiry, hv]
      rw [pexpire_nx_of_isSome hsome]
      exact Or.inr ⟨e, hv, Or.inl hv⟩
    | none =>
      by_cases hle : millis ≤ 0
      · rw [pexpire_nx_of_nonpos hv now hle]
        exact Or.inl rfl
      · rw [pexpire_nx_of_pos hv now (not_le.mp hle)]
        exact Or.inr ⟨_, rfl, Or.inr rfl⟩

variable [DecidableEq κ]

def mem (entry : Entry κ) (k : κ) : Bool := entry.any fun v => k ∈ v.members

/-- `SADD key k` with the number of members that it added. -/
def sadd (entry : Entry κ) (k : κ) : ℕ × Entry κ :=
  match entry with
  | none => (1, some ⟨{k}, none, Finset.singleton_nonempty k⟩)
  | some v =>
    (if k ∈ v.members then 0 else 1,
      some ⟨insert k v.members, v.expiresAt, Finset.insert_nonempty k v.members⟩)

/-- `SISMEMBER key k`. -/
def sismember (entry : Entry κ) (k : κ) : ℕ := if mem entry k then 1 else 0

@[simp] theorem mem_none (k : κ) : mem none k = false := rfl

@[simp] theorem mem_some (v : Value κ) (k : κ) : mem (some v) k = decide (k ∈ v.members) := rfl

theorem sadd_fst (entry : Entry κ) (k : κ) :
    (sadd entry k).1 = if mem entry k then 0 else 1 := by
  cases entry with
  | none => rfl
  | some v => simp [sadd]

theorem mem_sadd (entry : Entry κ) (k k' : κ) :
    mem (sadd entry k).2 k' = (decide (k' = k) || mem entry k') := by
  cases entry with
  | none => simp [sadd]
  | some v => simp [sadd]

@[simp] theorem expiry_sadd (entry : Entry κ) (k : κ) :
    expiry (sadd entry k).2 = expiry entry := by
  cases entry with
  | none => rfl
  | some v => rfl

theorem sadd_ne_none (entry : Entry κ) (k : κ) : (sadd entry k).2 ≠ none := by
  cases entry with
  | none => simp [sadd]
  | some v => simp [sadd]

/-- `PEXPIRE` keeps the members or deletes the set. -/
theorem pexpire_members (now : ℤ) (entry : Entry κ) (millis : ℤ) (nx : Bool) :
    (pexpire now entry millis nx).2 = none ∨
      ((pexpire now entry millis nx).2.isSome = entry.isSome ∧
        ∀ k, mem (pexpire now entry millis nx).2 k = mem entry k) := by
  cases entry with
  | none => exact Or.inl rfl
  | some v =>
    simp only [pexpire]
    split
    · exact Or.inr ⟨rfl, fun k => rfl⟩
    · split
      · exact Or.inl rfl
      · exact Or.inr ⟨rfl, fun k => rfl⟩

end RedisSet
