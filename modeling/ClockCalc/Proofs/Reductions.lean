import ClockCalc.Proofs.Parsing

/-! The order of reductions. A reducer is asked about the subtrees of one tree in post-order and the
first refusal is the answer. Where the text has a fault, it is asked about the operands that are
complete in the tokens before the fault, and only then the fault is the answer. -/

namespace ClockCalc

/-- The subtrees in the order in which they are completed: the left operand, the right one, and
the operator after both. -/
def Expr.reductions : Expr → List Expr
  | .literal t => [.literal t]
  | .signed op e position => e.reductions ++ [.signed op e position]
  | .binary op left right position =>
    left.reductions ++ right.reductions ++ [.binary op left right position]

theorem Expr.self_mem_reductions (e : Expr) : e ∈ e.reductions := by
  cases e <;> simp [reductions]

namespace Reducer

variable {α : Type} (R : Reducer α)

/-- The operands have come to something, and the reducer refuses to go on from there. -/
inductive Refuses : Expr → Error → Prop
  | literal {t err} : R.literal t = .error err → Refuses (.literal t) err
  | signed {op e v position err} : R.fold e = .ok v → R.signed op v position = .error err →
      Refuses (.signed op e position) err
  | binary {op left right x y position err} : R.fold left = .ok x → R.fold right = .ok y →
      R.binary op x y position = .error err → Refuses (.binary op left right position) err

def Passes (es : List Expr) : Prop := ∀ e ∈ es, ∃ v, R.fold e = .ok v

/-- The first refusal among these reductions. -/
def FirstRefusal (es : List Expr) (err : Error) : Prop :=
  ∃ before e after, es = before ++ e :: after ∧ R.Passes before ∧ R.Refuses e err

variable {R} {es fs : List Expr} {e : Expr} {err : Error}

theorem passes_append : R.Passes (es ++ fs) ↔ R.Passes es ∧ R.Passes fs := by
  simp [Passes, or_imp, forall_and]

theorem passes_singleton : R.Passes [e] ↔ ∃ v, R.fold e = .ok v := by
  simp [Passes]

theorem Refuses.fold (h : R.Refuses e err) : R.fold e = .error err := by
  cases h with
  | literal h => exact h
  | signed he h => simp [Reducer.fold, he, h]
  | binary hl hr h => simp [Reducer.fold, hl, hr, h]

theorem firstRefusal_singleton : R.FirstRefusal [e] err ↔ R.Refuses e err := by
  constructor
  · rintro ⟨before, e', after, h, -, hr⟩
    obtain ⟨-, rfl, -⟩ : before = [] ∧ e' = e ∧ after = [] := by
      simpa [List.singleton_eq_append_iff] using h
    exact hr
  · intro h
    exact ⟨[], e, [], rfl, by simp [Passes], h⟩

/-- The second part is reached only if the first one passes. -/
theorem firstRefusal_append :
    R.FirstRefusal (es ++ fs) err ↔
      R.FirstRefusal es err ∨ R.Passes es ∧ R.FirstRefusal fs err := by
  constructor
  · rintro ⟨before, e, after, h, hb, hr⟩
    rcases List.append_eq_append_iff.1 h with ⟨more, rfl, rfl⟩ | ⟨more, rfl, hmore⟩
    · obtain ⟨hes, hm⟩ := passes_append.1 hb
      exact .inr ⟨hes, more, e, after, rfl, hm, hr⟩
    · cases more with
      | nil =>
        rw [List.append_nil]
        exact .inr ⟨hb, [], e, after, hmore.symm, by simp [Passes], hr⟩
      | cons e' more =>
        obtain ⟨rfl, -⟩ := List.cons.inj hmore
        exact .inl ⟨before, e, more, rfl, hb, hr⟩
  · rintro (⟨before, e, after, rfl, hb, hr⟩ | ⟨hes, before, e, after, rfl, hb, hr⟩)
    · exact ⟨before, e, after ++ fs, by simp, hb, hr⟩
    · exact ⟨es ++ before, e, after, by simp, passes_append.2 ⟨hes, hb⟩, hr⟩

/-- Nothing is computed without its operands. -/
theorem passes_reductions : R.Passes e.reductions ↔ ∃ v, R.fold e = .ok v := by
  refine ⟨fun h => h e e.self_mem_reductions, ?_⟩
  rintro ⟨v, hv⟩
  induction e generalizing v with
  | literal t => exact passes_singleton.2 ⟨v, hv⟩
  | signed op e position ih =>
    obtain ⟨w, hw, -⟩ := bind_eq_ok_iff.1 hv
    exact passes_append.2 ⟨ih w hw, passes_singleton.2 ⟨v, hv⟩⟩
  | binary op left right position ihl ihr =>
    obtain ⟨x, hx, hrest⟩ := bind_eq_ok_iff.1 hv
    obtain ⟨y, hy, -⟩ := bind_eq_ok_iff.1 hrest
    exact passes_append.2 ⟨passes_append.2 ⟨ihl x hx, ihr y hy⟩, passes_singleton.2 ⟨v, hv⟩⟩

/-- Folding stops at the first refusal in post-order. -/
theorem fold_eq_error_iff : R.fold e = .error err ↔ R.FirstRefusal e.reductions err := by
  induction e generalizing err with
  | literal t =>
    rw [Expr.reductions, firstRefusal_singleton]
    exact ⟨.literal, Refuses.fold⟩
  | signed op e position ih =>
    rw [Expr.reductions, firstRefusal_append, firstRefusal_singleton, passes_reductions, ← ih]
    constructor
    · intro h
      rcases bind_eq_error_iff.1 h with he | ⟨v, hv, h⟩
      · exact .inl he
      · exact .inr ⟨⟨v, hv⟩, .signed hv h⟩
    · rintro (he | ⟨-, hr⟩)
      · simp [fold, he]
      · exact hr.fold
  | binary op left right position ihl ihr =>
    rw [Expr.reductions, firstRefusal_append, firstRefusal_append, firstRefusal_singleton,
      passes_append, passes_reductions, passes_reductions, ← ihl, ← ihr]
    constructor
    · intro h
      rcases bind_eq_error_iff.1 h with hl | ⟨x, hx, h⟩
      · exact .inl (.inl hl)
      · rcases bind_eq_error_iff.1 h with hr | ⟨y, hy, h⟩
        · exact .inl (.inr ⟨⟨x, hx⟩, hr⟩)
        · exact .inr ⟨⟨⟨x, hx⟩, ⟨y, hy⟩⟩, .binary hx hy h⟩
    · rintro ((hl | ⟨⟨x, hx⟩, hr⟩) | ⟨-, hr⟩)
      · simp [fold, hl]
      · simp [fold, hx, hr]
      · exact hr.fold

theorem foldAll_eq_ok_iff : R.foldAll es = .ok () ↔ R.Passes (es.flatMap Expr.reductions) := by
  induction es with
  | nil => simp [foldAll, Passes]
  | cons e es ih =>
    rw [List.flatMap_cons, passes_append, passes_reductions, ← ih, foldAll, bind_eq_ok_iff]
    simp

theorem foldAll_eq_error_iff :
    R.foldAll es = .error err ↔ R.FirstRefusal (es.flatMap Expr.reductions) err := by
  induction es with
  | nil => simp [foldAll, FirstRefusal]
  | cons e es ih =>
    rw [List.flatMap_cons, firstRefusal_append, passes_reductions, ← ih, ← fold_eq_error_iff,
      foldAll, bind_eq_error_iff]
    simp

end Reducer

/-- A text derives one tree for all reducers, or it has a fault, and the tokens before the fault
hold the operands that are folded first. -/
theorem Expr.exists_tree_or_fault (ts : List Token) :
    (∃ (p : Phrase) (e : Expr), p.Derives ts e ∧
      ∀ {α : Type} (R : Reducer α), R.read ts = R.fold e) ∨
    ∃ held fault, Accounts 0 ts (.stopped held fault) ∧
      ∀ {α : Type} (R : Reducer α),
        R.read ts = (do R.foldAll held; .error (.grammar fault)) := by
  obtain ⟨r, hr⟩ := Reducer.exists_reads 0 [] none ts
  have hpart : ∀ {α : Type} (R : Reducer α), R.readPart 0 ts = R.finish r := fun R =>
    R.readPart_of_reads hr
  have haccounts : Accounts 0 ([] ++ ts) r := Standing.accounts (.between .nil) hr
  rw [List.nil_append] at haccounts
  cases r with
  | whole e rest =>
    cases haccounts with
    | @whole p _ hp hn =>
      rw [Nat.zero_add] at hn
      cases rest with
      | nil =>
        rw [List.append_nil] at hpart ⊢
        refine .inl ⟨p, p.tree, ⟨hp, hn, rfl, rfl⟩, fun R => ?_⟩
        simp [Reducer.read, hpart, Reducer.finish]
      | cons t rest =>
        have hshallow : 0 + Reducer.depth ([] : List (Frame Expr)) + p.nesting ≤
            Reducer.maxNesting := by simpa [Reducer.depth] using hn
        refine .inr ⟨[p.tree], .unexpected t.lexeme t.position, ?_, fun R => ?_⟩
        · exact .afterSum .nil (by simp) hp hshallow .unexpected
        · simp [Reducer.read, hpart, Reducer.finish, Reducer.foldAll]
  | stopped held fault =>
    exact .inr ⟨held, fault, haccounts, fun R => by simp [Reducer.read, hpart, Reducer.finish]⟩

/-- Every reducer folds the one tree of a text in post-order up to the first refusal. Where the
text has a fault, the operands before it are folded in the same way, and a refusal among them is
answered in place of the fault. -/
theorem Reducer.read_follows_tree (ts : List Token) :
    (∀ e, Expr.reducer.read ts = .ok e →
      (∃ p : Phrase, p.Derives ts e) ∧
      ∀ {α : Type} (R : Reducer α), R.read ts = R.fold e ∧
        ∀ err, R.fold e = .error err ↔ R.FirstRefusal e.reductions err) ∧
    ∀ err, Expr.reducer.read ts = .error err →
      ∃ held fault, err = .grammar fault ∧ Expr.Accounts 0 ts (.stopped held fault) ∧
        ∀ {α : Type} (R : Reducer α),
          R.Passes (held.flatMap Expr.reductions) ∧ R.read ts = .error err ∨
          ∃ err', R.FirstRefusal (held.flatMap Expr.reductions) err' ∧
            R.read ts = .error err' := by
  rcases Expr.exists_tree_or_fault ts with ⟨p, e, hp, hread⟩ | ⟨held, fault, haccounts, hread⟩
  · refine ⟨fun e' he => ?_, fun err herr => ?_⟩
    · rw [hread, Expr.fold_reducer] at he
      cases he
      exact ⟨⟨p, hp⟩, fun R => ⟨hread R, fun err => fold_eq_error_iff⟩⟩
    · rw [hread, Expr.fold_reducer] at herr
      cases herr
  · have htree : Expr.reducer.read ts = .error (.grammar fault) := by
      rw [hread, Expr.foldAll_reducer, ok_bind]
    refine ⟨fun e he => ?_, fun err herr => ?_⟩
    · rw [htree] at he
      cases he
    · rw [htree] at herr
      cases herr
      refine ⟨held, fault, rfl, haccounts, fun R => ?_⟩
      rw [hread]
      cases hfold : R.foldAll held with
      | ok u => exact .inl ⟨foldAll_eq_ok_iff.1 hfold, rfl⟩
      | error err => exact .inr ⟨err, foldAll_eq_error_iff.1 hfold, rfl⟩

end ClockCalc
