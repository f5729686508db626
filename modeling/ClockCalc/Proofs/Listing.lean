import ClockCalc.Proofs.Kinds
import ClockCalc.Proofs.Literals
import ClockCalc.Proofs.Parsing
import ClockCalc.Proofs.Terms

/-! Listings of expressions on the stack machine. The listing of a tree is that of a term, and it
ends where the computation of the term ends. So a listing that passed its checks never finds too few
values nor leaves too many, and its run ends as the direct computation does. -/

namespace ClockCalc

namespace Expr

/-- The literals in the order of the text. -/
def literals : Expr → List Token
  | literal t => [t]
  | signed _ e _ => e.literals
  | binary _ left right _ => left.literals ++ right.literals

/-- Operands in their order, each operator after its operands. -/
def items : Expr → List Postfix.Item
  | literal t => [.operand t.lexeme]
  | signed op e _ => e.items ++ [.mark (.sign op)]
  | binary op left right _ => left.items ++ right.items ++ [.mark (.binary op)]

/-- The term that is left of a tree where nothing but the texts of its literals is known. -/
def term : Expr → Term
  | literal t => .operand t.lexeme
  | signed op e _ => .signed op e.term
  | binary op left right _ => .binary op left.term right.term

theorem items_term (e : Expr) : e.term.items = e.items := by
  induction e with
  | literal t => rfl
  | signed op e position ih => simp only [term, Term.items, items, ih]
  | binary op left right position ihl ihr => simp only [term, Term.items, items, ihl, ihr]

end Expr

namespace Phrase

theorem literals_subset (p : Phrase) :
    p.tree.literals ⊆ p.tokens := by
  induction p with
  | literal t ht => simp [tree, tokens, Expr.literals]
  | group o p c ho hc ih =>
    exact fun t ht => List.mem_cons_of_mem _ (List.mem_append_left _ (ih ht))
  | signed op t p ht ih => exact fun u hu => List.mem_cons_of_mem _ (ih hu)
  | binary op l t r ht ihl ihr =>
    intro u hu
    rcases List.mem_append.1 hu with hu | hu
    · exact List.mem_append_left _ (ihl hu)
    · exact List.mem_append_right _ (List.mem_cons_of_mem _ (ihr hu))

end Phrase

namespace Expr

theorem literals_subset {ts : List Token} {e : Expr} (h : reducer.read ts = .ok e) :
    e.literals ⊆ ts := by
  obtain ⟨p, ⟨-, -, rfl, rfl⟩⟩ := exists_derivation h
  exact p.literals_subset

end Expr

namespace Machine

/-- What the machine makes of a tree: literals are read from their texts alone and no positions
are known. -/
def evaluate : Expr → Except RunFault Value
  | .literal t => operand t.lexeme
  | .signed op e _ => do
    let v ← evaluate e
    (v.applySign op).mapError fun cause => .arithmetic cause none
  | .binary op left right _ => do
    let v ← evaluate left
    let w ← evaluate right
    (Value.apply op v w).mapError (·.located none)

theorem value_term (e : Expr) : e.term.value = evaluate e := by
  induction e with
  | literal t => rfl
  | signed op e position ih => simp only [Expr.term, Term.value, evaluate, ih]
  | binary op left right position ihl ihr =>
    simp only [Expr.term, Term.value, evaluate, ihl, ihr]

theorem reports_of_evaluate_ok {e : Expr} {v : Value} (h : evaluate e = .ok v) :
    ∃ (rs : List Report) (text : String), rs.length = e.items.length + 1 ∧
      Runs (ready e.items) rs (running [⟨text, v⟩] []) ∧
      (ready e.items).reports =
        (rs ++ [Report.mk (some ("The result is " ++ v.text)) none none]).map .ok := by
  rw [← e.items_term]
  exact reports_of_value_ok ((value_term e).trans h)

theorem reports_of_evaluate_error {e : Expr} {fault : RunFault} (h : evaluate e = .error fault) :
    ∃ rs : List Report, (ready e.items).reports = rs.map .ok ++ [.error fault] := by
  rw [← e.items_term]
  exact reports_of_value_error ((value_term e).trans h)

end Machine

namespace Postfix

theorem exists_of_literal_eq_ok {t : Token} {p : Postfix} (h : reducer.literal t = .ok p) :
    ∃ v, Value.ofLiteral t = .ok v ∧ p = ⟨[.operand t.lexeme], v.kind⟩ := by
  obtain ⟨v, hv, h⟩ := bind_eq_ok_iff.1 h
  exact ⟨v, mapError_eq_ok_iff.1 hv, (Except.ok.inj h).symm⟩

theorem exists_of_binary_eq_ok {op : BinaryOp} {p q r : Postfix} {position : Nat}
    (h : reducer.binary op p q position = .ok r) :
    ∃ kind, Kind.combine? op p.kind q.kind = some kind ∧
      r = ⟨p.items ++ q.items ++ [.mark (.binary op)], kind⟩ := by
  obtain ⟨kind, hk, h⟩ := bind_eq_ok_iff.1 h
  exact ⟨kind, Kind.check_eq_ok_iff.1 (mapError_eq_ok_iff.1 hk), (Except.ok.inj h).symm⟩

theorem items_of_fold {e : Expr} {p : Postfix} (h : reducer.fold e = .ok p) :
    p.items = e.items := by
  induction e generalizing p with
  | literal t =>
    obtain ⟨v, -, rfl⟩ := exists_of_literal_eq_ok h
    rfl
  | signed op e position ih =>
    obtain ⟨q, hq, h⟩ := bind_eq_ok_iff.1 h
    cases h
    simp [Expr.items, ih hq]
  | binary op left right position ihl ihr =>
    obtain ⟨q, hq, h⟩ := bind_eq_ok_iff.1 h
    obtain ⟨r, hr, h⟩ := bind_eq_ok_iff.1 h
    obtain ⟨kind, -, rfl⟩ := exists_of_binary_eq_ok h
    simp [Expr.items, ihl hq, ihr hr]

theorem exists_tree_of_ofTokens {wanted : Option Kind} {ts : List Token} {p : Postfix}
    (h : ofTokens wanted ts = .ok p) :
    ∃ e, Expr.reducer.read ts = .ok e ∧ reducer.fold e = .ok p ∧
      Kind.expect wanted p.kind = .ok () := by
  obtain ⟨q, hq, h⟩ := bind_eq_ok_iff.1 h
  obtain ⟨_, hexpect, h⟩ := bind_eq_ok_iff.1 h
  cases h
  obtain ⟨e, he, hfold⟩ := reducer.exists_tree hq
  exact ⟨e, he, hfold, hexpect⟩

end Postfix

namespace Machine

/-- Whatever the literals of a listing look like, its value is of the derived kind. -/
theorem evaluate_of_fold {e : Expr} {p : Postfix} (h : Postfix.reducer.fold e = .ok p) :
    (∃ v, evaluate e = .ok v ∧ v.kind = p.kind) ∨
      ∃ cause, evaluate e = .error (.arithmetic cause none) := by
  induction e generalizing p with
  | literal t =>
    obtain ⟨v, hv, rfl⟩ := Postfix.exists_of_literal_eq_ok h
    obtain ⟨w, hw, hk, -⟩ := exists_operand_of_ofLiteral hv
    exact .inl ⟨w, hw, hk⟩
  | signed op e position ih =>
    obtain ⟨q, hq, h⟩ := bind_eq_ok_iff.1 h
    cases h
    rcases ih hq with ⟨v, hv, hk⟩ | ⟨cause, hf⟩
    · cases hw : v.applySign op with
      | ok w => exact .inl ⟨w, by simp [evaluate, hv, hw], (Value.kind_of_applySign hw).trans hk⟩
      | error cause => exact .inr ⟨cause, by simp [evaluate, hv, hw]⟩
    · exact .inr ⟨cause, by simp [evaluate, hf]⟩
  | binary op left right position ihl ihr =>
    obtain ⟨q, hq, h⟩ := bind_eq_ok_iff.1 h
    obtain ⟨r, hr, h⟩ := bind_eq_ok_iff.1 h
    obtain ⟨kind, hkind, rfl⟩ := Postfix.exists_of_binary_eq_ok h
    rcases ihl hq with ⟨v, hv, hvk⟩ | ⟨cause, hf⟩
    · rcases ihr hr with ⟨w, hw, hwk⟩ | ⟨cause, hf⟩
      · rw [← hvk, ← hwk] at hkind
        rcases Value.apply_of_combine hkind with ⟨u, hu, hk⟩ | ⟨cause, hu⟩
        · exact .inl ⟨u, by simp [evaluate, hv, hw, hu], hk⟩
        · exact .inr ⟨cause, by simp [evaluate, hv, hw, hu, Value.Fault.located]⟩
      · exact .inr ⟨cause, by simp [evaluate, hv, hf]⟩
    · exact .inr ⟨cause, by simp [evaluate, hf]⟩

/-- The machine ends as the direct computation does, but knows no position. -/
inductive Echoes : Except Error Value → Except RunFault Value → Prop where
  | value (v : Value) : Echoes (.ok v) (.ok v)
  | fault (cause : ArithmeticFault) (position : Nat) :
      Echoes (.error (.run (.arithmetic cause (some position)))) (.error (.arithmetic cause none))

theorem Echoes.bind {x : Except Error Value} {y : Except RunFault Value}
    {f : Value → Except Error Value} {g : Value → Except RunFault Value} (h : Echoes x y)
    (hfg : ∀ v, x = .ok v → Echoes (f v) (g v)) : Echoes (x >>= f) (y >>= g) := by
  cases h with
  | value v => exact hfg v rfl
  | fault cause position => exact .fault cause position

theorem kind_of_folds {e : Expr} {v : Value} {p : Postfix} (hv : Value.reducer.fold e = .ok v)
    (hp : Postfix.reducer.fold e = .ok p) : p.kind = v.kind := by
  obtain ⟨q, hq, hk⟩ := (Value.agree_fold e).of_left_ok hv
  rw [hp] at hq
  cases hq
  exact hk

theorem echoes_fold {e : Expr} {p : Postfix} (hpoint : ∀ t ∈ e.literals, t.HasPoint)
    (h : Postfix.reducer.fold e = .ok p) : Echoes (Value.reducer.fold e) (evaluate e) := by
  induction e generalizing p with
  | literal t =>
    obtain ⟨v, hv, rfl⟩ := Postfix.exists_of_literal_eq_ok h
    obtain ⟨w, hw, -, hsame⟩ := exists_operand_of_ofLiteral hv
    obtain rfl := hsame (hpoint t (by simp [Expr.literals]))
    simp only [Reducer.fold, Value.reducer, evaluate, hv, hw]
    exact .value w
  | signed op e position ih =>
    obtain ⟨q, hq, -⟩ := bind_eq_ok_iff.1 h
    refine (ih hpoint hq).bind fun v hv => ?_
    simp only [Value.reducer]
    cases v.applySign op with
    | ok w => exact .value w
    | error cause => exact .fault cause position
  | binary op left right position ihl ihr =>
    obtain ⟨q, hq, h⟩ := bind_eq_ok_iff.1 h
    obtain ⟨r, hr, h⟩ := bind_eq_ok_iff.1 h
    obtain ⟨kind, hkind, rfl⟩ := Postfix.exists_of_binary_eq_ok h
    have hleft : ∀ t ∈ left.literals, t.HasPoint := fun t ht =>
      hpoint t (List.mem_append_left _ ht)
    have hright : ∀ t ∈ right.literals, t.HasPoint := fun t ht =>
      hpoint t (List.mem_append_right _ ht)
    refine (ihl hleft hq).bind fun v hv => (ihr hright hr).bind fun w hw => ?_
    rw [kind_of_folds hv hq, kind_of_folds hw hr] at hkind
    simp only [Value.reducer, Kind.check, hkind]
    rcases Value.apply_of_combine hkind with ⟨u, hu, -⟩ | ⟨cause, hu⟩
    · rw [hu]
      exact .value u
    · rw [hu]
      exact .fault cause position

/-- A listing that passes its checks runs to a value of the derived kind, or up to an operator
without a result. It is never short of values, leaves none over and holds no operand that is no
value; nor does the direct computation fail in such a way. -/
theorem listings_run_safely (wanted : Option Kind) (ts : List Token) :
    (∀ p, Postfix.ofTokens wanted ts = .ok p →
      (∀ n fault, .error fault ∈ ((ready p.items).take n).1 →
        ∃ cause, fault = .arithmetic cause none) ∧
      ((∃ (rs : List Report) (last : Slot), rs.length = p.items.length + 1 ∧
          Runs (ready p.items) rs (running [last] []) ∧ last.value.kind = p.kind ∧
          (ready p.items).reports =
            (rs ++ [Report.mk (some ("The result is " ++ last.value.text)) none none]).map .ok) ∨
        ∃ (rs : List Report) (cause : ArithmeticFault),
          (ready p.items).reports = rs.map .ok ++ [.error (.arithmetic cause none)])) ∧
    ∀ fault, Value.ofTokens wanted ts = .error (.run fault) →
      ∃ cause position, fault = .arithmetic cause (some position) := by
  refine ⟨fun p hp => ?_, fun fault hf => ?_⟩
  · obtain ⟨e, -, hfold, -⟩ := Postfix.exists_tree_of_ofTokens hp
    rw [Postfix.items_of_fold hfold]
    rcases evaluate_of_fold hfold with ⟨v, hv, hk⟩ | ⟨cause, hf⟩
    · obtain ⟨rs, text, hlength, hruns, hreports⟩ := reports_of_evaluate_ok hv
      refine ⟨fun n fault hn => ?_, .inl ⟨rs, ⟨text, v⟩, hlength, hruns, hk, hreports⟩⟩
      have hm := (take_prefix_reports _ n).subset hn
      rw [hreports] at hm
      simp at hm
    · obtain ⟨rs, hreports⟩ := reports_of_evaluate_error hf
      refine ⟨fun n fault hn => ⟨cause, ?_⟩, .inr ⟨rs, cause, hreports⟩⟩
      have hm := (take_prefix_reports _ n).subset hn
      rw [hreports] at hm
      simpa using hm
  · rcases (Value.agree_ofTokens wanted ts).of_left_error hf with ⟨hstatic, -⟩ | hs
    · exact hstatic.elim
    · obtain ⟨cause, position, hx⟩ := hs
      rw [hf] at hx
      cases hx
      exact ⟨cause, position, rfl⟩

theorem listings_run_safely_on_scaled_time :
    Postfix.ofText none "2*0:30" =
      .ok ⟨[.operand "2", .operand "0:30", .mark (.binary .mul)], .time⟩ ∧
    ∃ (rs : List Report) (last : Slot), rs.length = 4 ∧
      Runs (ready [.operand "2", .operand "0:30", .mark (.binary .mul)]) rs (running [last] []) ∧
      last.value.kind = .time ∧
      (ready [.operand "2", .operand "0:30", .mark (.binary .mul)]).reports =
        (rs ++ [Report.mk (some ("The result is " ++ last.value.text)) none none]).map .ok := by
  have hp : Postfix.ofTokens none [⟨.literal .integer, "2", 0⟩, ⟨.operator .mul, "*", 1⟩,
      ⟨.literal .time, "0:30", 2⟩] =
        .ok ⟨[.operand "2", .operand "0:30", .mark (.binary .mul)], .time⟩ := rfl
  refine ⟨rfl, ?_⟩
  obtain ⟨-, ⟨rs, last, hlength, hruns, hkind, hreports⟩ | ⟨rs, cause, hreports⟩⟩ :=
    (listings_run_safely none _).1 _ hp
  · exact ⟨rs, last, hlength, hruns, hkind, hreports⟩
  · have hend := congrArg List.getLast? hreports
    rw [List.getLast?_concat] at hend
    cases hend

theorem echoes_ofTokens {wanted : Option Kind} {ts : List Token} {e : Expr} {p : Postfix}
    (hpoint : ∀ t ∈ ts, t.HasPoint) (he : Expr.reducer.read ts = .ok e)
    (hfold : Postfix.reducer.fold e = .ok p) (hexpect : Kind.expect wanted p.kind = .ok ()) :
    Echoes (Value.ofTokens wanted ts) (evaluate e) := by
  have hecho : Echoes (Value.reducer.fold e) (evaluate e) :=
    echoes_fold (fun t ht => hpoint t (Expr.literals_subset he ht)) hfold
  rw [Value.ofTokens, Value.reducer.read_eq_fold he, ← bind_ok_self (evaluate e)]
  refine hecho.bind fun v hv => ?_
  rw [← kind_of_folds hv hfold, hexpect]
  exact .value v

/-- A machine made from a text works off a tree that echoes the direct computation. -/
theorem exists_echo_of_ofText {wanted : Option Kind} {text : String} {m : Machine}
    (h : ofText wanted text = .ok m) :
    ∃ e, m = ready e.items ∧ Echoes (Value.ofText wanted text) (evaluate e) := by
  obtain ⟨p, hp, rfl⟩ := map_eq_ok_iff.1 h
  obtain ⟨ts, hts, hp⟩ := bind_eq_ok_iff.1 hp
  obtain ⟨e, he, hfold, hexpect⟩ := Postfix.exists_tree_of_ofTokens hp
  refine ⟨e, by rw [Postfix.items_of_fold hfold], ?_⟩
  have hpoint := Token.hasPoint_of_ofText (mapError_eq_ok_iff.1 hts)
  rw [Value.ofText, hts, ok_bind]
  exact echoes_ofTokens hpoint he hfold hexpect

/-- Stepping through the listing of a text and computing the text at once come to the same end. -/
theorem stepping_agrees_with_answer {wanted : Option Kind} {text : String} {m : Machine}
    (h : ofText wanted text = .ok m) :
    (∀ n, m.bound ≤ n → m.take n = (m.reports, done)) ∧
    (∀ s, answer wanted text = .ok s ↔
      ∃ (rs : List Report) (last : Report), m.reports = (rs ++ [last]).map .ok ∧
        last.operation = some ("The result is " ++ s)) ∧
    (∀ e, answer wanted text = .error e →
      ∃ (cause : ArithmeticFault) (position : Nat) (rs : List Report),
        e = .run (.arithmetic cause (some position)) ∧
        m.reports = rs.map .ok ++ [.error (.arithmetic cause none)]) ∧
    ∀ (rs : List Report) (fault : RunFault), m.reports = rs.map .ok ++ [.error fault] →
      ∃ cause position, fault = .arithmetic cause none ∧
        answer wanted text = .error (.run (.arithmetic cause (some position))) := by
  refine ⟨fun n hn => take_of_bound_le hn, ?_⟩
  obtain ⟨e, rfl, hecho⟩ := exists_echo_of_ofText h
  unfold answer
  generalize Value.ofText wanted text = x, hy : evaluate e = y at hecho
  cases hecho with
  | value v =>
    obtain ⟨rs, -, -, -, hreports⟩ := reports_of_evaluate_ok hy
    rw [hreports]
    refine ⟨fun s => ⟨fun hs => ?_, ?_⟩, fun e he => ?_, fun rs' fault hrs => ?_⟩
    · cases hs
      exact ⟨rs, _, rfl, rfl⟩
    · rintro ⟨rs', last, hrs, hlast⟩
      have hend := congrArg List.getLast? hrs
      simp only [List.map_append, List.map_cons, List.map_nil, List.getLast?_concat,
        Option.some.injEq, Except.ok.injEq] at hend
      rw [← hend, Option.some.injEq, String.append_right_inj] at hlast
      rw [← hlast]
      rfl
    · cases he
    · have hend := congrArg List.getLast? hrs
      simp at hend
  | fault cause position =>
    obtain ⟨rs, hreports⟩ := reports_of_evaluate_error hy
    rw [hreports]
    refine ⟨fun s => ⟨fun hs => ?_, ?_⟩, fun e he => ?_, fun rs' fault hrs => ?_⟩
    · cases hs
    · rintro ⟨rs', last, hrs, -⟩
      have hend := congrArg List.getLast? hrs
      simp at hend
    · cases he
      exact ⟨cause, position, rs, rfl, rfl⟩
    · have hend := congrArg List.getLast? hrs
      simp only [List.getLast?_concat, Option.some.injEq, Except.error.injEq] at hend
      exact ⟨cause, position, hend.symm, rfl⟩

theorem stepping_agrees_on_scaled_time :
    ofText none "2*0:30" =
      .ok (ready [.operand "2", .operand "0:30", .mark (.binary .mul)]) ∧
    answer none "2*0:30" = .ok "0:01:00" ∧
    ∃ (rs : List Report) (last : Report),
      (ready [.operand "2", .operand "0:30", .mark (.binary .mul)]).reports =
        (rs ++ [last]).map .ok ∧
      last.operation = some ("The result is " ++ "0:01:00") := by
  have h : ofText none "2*0:30" =
      .ok (ready [.operand "2", .operand "0:30", .mark (.binary .mul)]) := by rfl
  have ha : answer none "2*0:30" = .ok "0:01:00" := by rfl
  exact ⟨h, ha, ((stepping_agrees_with_answer h).2.1 "0:01:00").1 ha⟩

end Machine

end ClockCalc
