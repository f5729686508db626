import ClockCalc.Postfix.Machine

/-! Runs of the stack machine. A step that succeeds lowers the bound on the reports by exactly one,
so the reports up to the bound are all there are, and a run that is known step by step gives
them in full. -/

namespace ClockCalc

namespace Machine

/-- Steps that all succeed, with their reports. -/
inductive Runs : Machine → List Report → Machine → Prop where
  | refl (m : Machine) : Runs m [] m
  | step {m m' m'' : Machine} {r : Report} {rs : List Report}
      (h : m.next? = some (.ok r, m')) (hs : Runs m' rs m'') : Runs m (r :: rs) m''

/-- Steps that succeed and one more that does not. -/
inductive Fails : Machine → List Report → RunFault → Prop where
  | intro {m m' : Machine} {rs : List Report} {fault : RunFault}
      (hs : Runs m rs m') (h : m'.next? = some (.error fault, done)) : Fails m rs fault

theorem Runs.single {m m' : Machine} {r : Report} (h : m.next? = some (.ok r, m')) :
    Runs m [r] m' :=
  .step h (.refl m')

theorem Runs.trans {m m' m'' : Machine} {rs rs' : List Report} (h : Runs m rs m')
    (h' : Runs m' rs' m'') : Runs m (rs ++ rs') m'' := by
  induction h with
  | refl m => exact h'
  | step h _ ih => exact .step h (ih h')

theorem Runs.fails {m m' : Machine} {rs rs' : List Report} {fault : RunFault}
    (h : Runs m rs m') (h' : Fails m' rs' fault) : Fails m (rs ++ rs') fault := by
  obtain ⟨hs, hf⟩ := h'
  exact ⟨h.trans hs, hf⟩

/-- Every step moves towards the end; a failure ends the run. -/
theorem next?_cases {m m' : Machine} {x : Except RunFault Report} (h : m.next? = some (x, m')) :
    (∃ r, x = .ok r ∧ m.bound = m'.bound + 1) ∨ (∃ fault, x = .error fault ∧ m' = done) := by
  cases m with
  | ready items => cases h; exact .inl ⟨_, rfl, rfl⟩
  | running stack items =>
    cases items with
    | nil =>
      cases h
      cases hf : finish stack with
      | ok r => exact .inl ⟨r, rfl, rfl⟩
      | error fault => exact .inr ⟨fault, rfl, rfl⟩
    | cons item items =>
      simp only [next?] at h
      split at h
      · cases h; exact .inl ⟨_, rfl, rfl⟩
      · cases h; exact .inr ⟨_, rfl, rfl⟩
  | done => cases h

theorem next?_eq_none_iff {m : Machine} : m.next? = none ↔ m = done := by
  cases m with
  | ready items => simp [next?]
  | running stack items =>
    cases items with
    | nil => simp [next?]
    | cons item items =>
      simp only [next?]
      split <;> simp
  | done => simp [next?]

@[simp] theorem take_done (n : Nat) : take n done = ([], done) := by
  cases n <;> rfl

theorem take_succ {m m' : Machine} {x : Except RunFault Report} (h : m.next? = some (x, m'))
    (n : Nat) : m.take (n + 1) = (x :: (m'.take n).1, (m'.take n).2) := by
  simp [take, h]

theorem Runs.bound {m m' : Machine} {rs : List Report} (h : Runs m rs m') :
    m.bound = rs.length + m'.bound := by
  induction h with
  | refl m => simp
  | step h _ ih =>
    rcases next?_cases h with ⟨r, hr, hb⟩ | ⟨fault, hr, _⟩
    · simp only [List.length_cons]
      omega
    · cases hr

theorem Runs.take {m m' : Machine} {rs : List Report} (h : Runs m rs m') (n : Nat) :
    m.take (rs.length + n) = (rs.map .ok ++ (m'.take n).1, (m'.take n).2) := by
  induction h with
  | refl m => simp
  | step h _ ih => simp [Nat.succ_add, take_succ h, ih]

/-- From the bound on, asking for more reports gives no more. -/
theorem take_of_bound_le {m : Machine} {n : Nat} (h : m.bound ≤ n) :
    m.take n = (m.reports, done) := by
  induction n generalizing m with
  | zero =>
    cases m with
    | ready items => cases h
    | running stack items => cases h
    | done => rfl
  | succ n ih =>
    cases hm : m.next? with
    | none => obtain rfl := next?_eq_none_iff.1 hm; rfl
    | some next =>
      obtain ⟨x, m'⟩ := next
      rcases next?_cases hm with ⟨r, rfl, hb⟩ | ⟨fault, rfl, rfl⟩
      · rw [take_succ hm, ih (by omega)]
        simp [reports, hb, take_succ hm]
      · obtain ⟨k, hk⟩ : ∃ k, m.bound = k + 1 := by
          cases m with
          | ready items => exact ⟨_, rfl⟩
          | running stack items => exact ⟨_, rfl⟩
          | done => cases hm
        simp [reports, take_succ hm, hk]

theorem reports_cons {m m' : Machine} {x : Except RunFault Report} (h : m.next? = some (x, m')) :
    m.reports = x :: m'.reports := by
  have ht := take_succ h (m.bound + m'.bound)
  rw [take_of_bound_le (by omega), take_of_bound_le (by omega)] at ht
  exact congrArg Prod.fst ht

theorem reports_eq_nil_iff {m : Machine} : m.reports = [] ↔ m = done := by
  constructor
  · intro h
    cases hm : m.next? with
    | none => exact next?_eq_none_iff.1 hm
    | some next =>
      rw [reports_cons hm] at h
      cases h
  · rintro rfl
    rfl

theorem fst_take (m : Machine) (n : Nat) : (m.take n).1 = m.reports.take n := by
  induction n generalizing m with
  | zero => rfl
  | succ n ih =>
    cases hm : m.next? with
    | none =>
      obtain rfl := next?_eq_none_iff.1 hm
      rfl
    | some next => rw [take_succ hm, reports_cons hm, List.take_succ_cons, ih]

/-- The machine is done with its last report, and stays so. -/
theorem take_of_length_le {m : Machine} {n : Nat} (h : m.reports.length ≤ n) :
    m.take n = (m.reports, done) := by
  induction n generalizing m with
  | zero =>
    obtain rfl := reports_eq_nil_iff.1 (List.length_eq_zero_iff.1 (Nat.le_zero.1 h))
    rfl
  | succ n ih =>
    cases hm : m.next? with
    | none =>
      obtain rfl := next?_eq_none_iff.1 hm
      rfl
    | some next =>
      rw [reports_cons hm, List.length_cons] at h
      rw [take_succ hm, reports_cons hm, ih (Nat.le_of_succ_le_succ h)]

/-- Reports already given do not change when more are asked for. -/
theorem take_prefix_reports (m : Machine) (n : Nat) : (m.take n).1 <+: m.reports := by
  rw [fst_take]
  exact List.take_prefix n _

theorem Runs.reports {m : Machine} {rs : List Report} (h : Runs m rs done) :
    m.reports = rs.map .ok := by
  have ht := h.take m.bound
  rw [take_of_bound_le (by omega)] at ht
  simpa using congrArg Prod.fst ht

theorem Fails.reports {m : Machine} {rs : List Report} {fault : RunFault}
    (h : Fails m rs fault) : m.reports = rs.map .ok ++ [.error fault] := by
  obtain ⟨hs, hf⟩ := h
  have ht := hs.take (m.bound + 1)
  rw [take_of_bound_le (by omega), take_succ hf] at ht
  simpa using congrArg Prod.fst ht

end Machine

end ClockCalc
