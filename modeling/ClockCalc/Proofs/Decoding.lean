import ClockCalc.Proofs.Terms

/-! Listings of any make on the stack machine. Wherever the machine stands, the items behind it are
the listings of a row of terms, and the stack holds their values; the row is determined by the
items. So a run ends with a result only for the listing of one term. Any other run stops at the
first item that cannot be done on the row before it, or at the end with a row of none or of many. -/

namespace ClockCalc

def Mark.arity : Mark → Nat
  | sign _ => 1
  | binary _ => 2

namespace Term

/-- The listings of a row of terms one after the other. The row has its last term first, as a stack
has. -/
def listing : List Term → List Postfix.Item
  | [] => []
  | t :: row => listing row ++ t.items

/-- Adds an item to a row, if the row is long enough. -/
def push : List Term → Postfix.Item → List Term
  | row, .operand text => .operand text :: row
  | t :: row, .mark (.sign op) => .signed op t :: row
  | right :: left :: row, .mark (.binary op) => .binary op left right :: row
  | row, .mark _ => row

theorem foldl_push_items (t : Term) (row : List Term) : t.items.foldl push row = t :: row := by
  induction t generalizing row with
  | operand text => rfl
  | signed op t ih =>
    rw [items, List.foldl_append, ih]
    rfl
  | binary op left right ihl ihr =>
    rw [items, List.foldl_append, List.foldl_append, ihl, ihr]
    rfl

theorem foldl_push_listing (row : List Term) : (listing row).foldl push [] = row := by
  induction row with
  | nil => rfl
  | cons t row ih => rw [listing, List.foldl_append, ih, foldl_push_items]

theorem listing_injective {row row' : List Term} (h : listing row = listing row') : row = row' := by
  rw [← foldl_push_listing row, h, foldl_push_listing]

def HasValues (row : List Term) : Prop := ∀ t ∈ row, ∃ v, t.value = .ok v

/-- Why an item cannot be done on a row: its text is no value, there are too few terms before it,
or the operation on their values fails. -/
inductive Refuses : List Term → Postfix.Item → RunFault → Prop
  | malformed {row text} : Value.read? text.toList = none →
      Refuses row (.operand text) (.malformed text)
  | missing {row mark} : row.length < mark.arity →
      Refuses row (.mark mark) (.missingOperand mark.text)
  | sign {row t op v cause} : t.value = .ok v → v.applySign op = .error cause →
      Refuses (t :: row) (.mark (.sign op)) (.arithmetic cause none)
  | binary {row left right op v w fault} : left.value = .ok v → right.value = .ok w →
      Value.apply op v w = .error fault →
      Refuses (right :: left :: row) (.mark (.binary op)) (fault.located none)

/-- What stops a listing, and the number of items that are done before. -/
inductive Stops : List Postfix.Item → Nat → RunFault → Prop
  | item {row item rest fault} : HasValues row → Refuses row item fault →
      Stops (listing row ++ item :: rest) (listing row).length fault
  | empty : Stops [] 0 (.missingOperand Machine.border)
  | leftover {row} : HasValues row → 2 ≤ row.length →
      Stops (listing row) (listing row).length (.leftover row.length)

theorem operand_value {text : String} {v : Value} (h : Value.read? text.toList = some v) :
    (operand text).value = .ok v := by
  simp only [value, Machine.operand, h]

theorem HasValues.cons {t : Term} {row : List Term} {v : Value} (ht : t.value = .ok v)
    (h : HasValues row) : HasValues (t :: row) :=
  List.forall_mem_cons.2 ⟨⟨v, ht⟩, h⟩

/-- An item on a row with values makes another such row or is refused. -/
theorem extends_or_refuses {row : List Term} (h : HasValues row) (item : Postfix.Item) :
    (∃ row', HasValues row' ∧ listing row' = listing row ++ [item]) ∨
      ∃ fault, Refuses row item fault := by
  cases item with
  | operand text =>
    cases hv : Value.read? text.toList with
    | none => exact .inr ⟨_, .malformed hv⟩
    | some v => exact .inl ⟨operand text :: row, .cons (operand_value hv) h, rfl⟩
  | mark mark =>
    cases mark with
    | sign op =>
      cases row with
      | nil => exact .inr ⟨_, .missing Nat.one_pos⟩
      | cons t row =>
        obtain ⟨⟨v, hv⟩, hrow⟩ := List.forall_mem_cons.1 h
        cases hw : v.applySign op with
        | error cause => exact .inr ⟨_, .sign hv hw⟩
        | ok w =>
          have hvalue : (signed op t).value = .ok w := by simp [value, hv, hw]
          exact .inl ⟨signed op t :: row, .cons hvalue hrow, by simp [listing, items]⟩
    | binary op =>
      cases row with
      | nil => exact .inr ⟨_, .missing (by simp [Mark.arity])⟩
      | cons right row =>
        cases row with
        | nil => exact .inr ⟨_, .missing (by simp [Mark.arity])⟩
        | cons left row =>
          obtain ⟨⟨w, hw⟩, h⟩ := List.forall_mem_cons.1 h
          obtain ⟨⟨v, hv⟩, hrow⟩ := List.forall_mem_cons.1 h
          cases hu : Value.apply op v w with
          | error fault => exact .inr ⟨_, .binary hv hw hu⟩
          | ok u =>
            have hvalue : (binary op left right).value = .ok u := by simp [value, hv, hw, hu]
            exact .inl ⟨binary op left right :: row, .cons hvalue hrow, by simp [listing, items]⟩

/-- By induction on what follows the row. -/
theorem row_or_stops (rest : List Postfix.Item) {row : List Term} (h : HasValues row) :
    (∃ row', HasValues row' ∧ listing row' = listing row ++ rest) ∨
      ∃ n fault, Stops (listing row ++ rest) n fault := by
  induction rest generalizing row with
  | nil => exact .inl ⟨row, h, (List.append_nil _).symm⟩
  | cons item rest ih =>
    rcases extends_or_refuses h item with ⟨row', h', hitems⟩ | ⟨fault, hf⟩
    · have hrest := ih h'
      rwa [hitems, List.append_assoc] at hrest
    · exact .inr ⟨_, fault, .item h hf⟩

/-- A listing that is done to its end is that of one term, or of none or too many. -/
theorem value_or_stops (items : List Postfix.Item) :
    (∃ (t : Term) (v : Value), t.items = items ∧ t.value = .ok v) ∨
      ∃ n fault, Stops items n fault := by
  have hnil : HasValues [] := fun t ht => absurd ht List.not_mem_nil
  rcases row_or_stops items hnil with ⟨row, h, rfl⟩ | hstop
  · match row, h with
    | [], _ => exact .inr ⟨_, _, .empty⟩
    | [t], h =>
      obtain ⟨v, hv⟩ := h t List.mem_cons_self
      exact .inl ⟨t, v, rfl, hv⟩
    | t :: u :: row, h => exact .inr ⟨_, _, .leftover h (by simp)⟩
  · exact .inr hstop

/-- The operands of a term with a value are all readable. -/
theorem exists_read?_of_value {t : Term} {v : Value} (h : t.value = .ok v) {text : String}
    (htext : .operand text ∈ t.items) : ∃ w, Value.read? text.toList = some w := by
  induction t generalizing v with
  | operand text' =>
    obtain rfl : text = text' := by simpa [items] using htext
    rw [value, Machine.operand] at h
    split at h
    · exact ⟨_, ‹_›⟩
    · cases h
  | signed op t ih =>
    obtain ⟨w, hw, -⟩ := bind_eq_ok_iff.1 h
    exact ih hw (by simpa [items] using htext)
  | binary op left right ihl ihr =>
    obtain ⟨x, hx, h⟩ := bind_eq_ok_iff.1 h
    obtain ⟨y, hy, -⟩ := bind_eq_ok_iff.1 h
    have hside : .operand text ∈ left.items ∨ .operand text ∈ right.items := by
      simpa [items] using htext
    rcases hside with hleft | hright
    · exact ihl hx hleft
    · exact ihr hy hright

/-- Only the empty listing lacks an operand in the end. -/
theorem Stops.eq_nil {items : List Postfix.Item} {n : Nat}
    (h : Stops items n (.missingOperand Machine.border)) : items = [] := by
  generalize hfault : RunFault.missingOperand Machine.border = fault at h
  cases h with
  | empty => rfl
  | leftover => cases hfault
  | item hrow hrefuses =>
    cases hrefuses with
    | malformed => cases hfault
    | @missing _ mark hshort =>
      have hmark : mark.text ≠ Machine.border := by
        rcases mark with (_ | _) | (_ | _ | _ | _ | _) <;> decide
      exact absurd (RunFault.missingOperand.inj hfault).symm hmark
    | sign => cases hfault
    | @binary _ _ _ _ _ _ fault => cases fault <;> cases hfault

end Term

namespace Machine

open Term (HasValues Refuses Stops listing)

/-- The slots of the stack hold the values of the terms. -/
inductive Holds : List Slot → List Term → Prop
  | nil : Holds [] []
  | cons {slot t stack row} : t.value = .ok slot.value → Holds stack row →
      Holds (slot :: stack) (t :: row)

theorem Holds.length_eq {stack : List Slot} {row : List Term} (h : Holds stack row) :
    stack.length = row.length := by
  induction h with
  | nil => rfl
  | cons _ _ ih => rw [List.length_cons, List.length_cons, ih]

/-- The machine works off the listing of a row and holds it then. -/
theorem exists_runs_listing {row : List Term} (h : HasValues row) (rest : List Postfix.Item) :
    ∃ rs stack, rs.length = (listing row).length ∧ Holds stack row ∧
      Runs (running [] (listing row ++ rest)) rs (running stack rest) := by
  induction row generalizing rest with
  | nil => exact ⟨[], [], rfl, .nil, .refl _⟩
  | cons t row ih =>
    obtain ⟨⟨v, hv⟩, hrow⟩ := List.forall_mem_cons.1 h
    obtain ⟨rs, stack, hlength, hholds, hruns⟩ := ih hrow (t.items ++ rest)
    have hd := delivers_items t stack rest
    rw [hv] at hd
    cases hd with
    | @value text _ rs' hlength' hruns' =>
      refine ⟨rs ++ rs', ⟨text, v⟩ :: stack, ?_, .cons hv hholds, ?_⟩
      · simp [listing, hlength, hlength']
      · rw [listing, List.append_assoc]
        exact hruns.trans hruns'

theorem apply_of_refuses {stack : List Slot} {row : List Term} {item : Postfix.Item}
    {fault : RunFault} (hstack : Holds stack row) (h : Refuses row item fault) :
    apply stack item = .error fault := by
  cases h with
  | malformed hv => simp [apply, operand, hv]
  | @missing _ mark hshort =>
    rw [← hstack.length_eq] at hshort
    cases mark with
    | sign op =>
      cases stack with
      | nil => rfl
      | cons slot stack => exact absurd hshort (by simp [Mark.arity])
    | binary op =>
      cases stack with
      | nil => rfl
      | cons slot stack =>
        cases stack with
        | nil => rfl
        | cons slot' stack => exact absurd hshort (by simp [Mark.arity])
  | sign hv hw =>
    cases hstack with
    | cons ht _ =>
      rw [hv] at ht
      cases ht
      simp [apply, hw]
  | binary hv hw hu =>
    cases hstack with
    | cons hright hstack =>
      cases hstack with
      | cons hleft _ =>
        rw [hw] at hright
        rw [hv] at hleft
        cases hright
        cases hleft
        simp [apply, hu]

theorem finish_of_long {stack : List Slot} (h : 2 ≤ stack.length) :
    finish stack = .error (.leftover stack.length) := by
  match stack, h with
  | _ :: _ :: _, _ => rfl

/-- Where a listing stops, the machine does. -/
theorem reports_of_stops {items : List Postfix.Item} {n : Nat} {fault : RunFault}
    (h : Stops items n fault) :
    ∃ rs : List Report, rs.length = n + 1 ∧
      (ready items).reports = rs.map .ok ++ [.error fault] := by
  have hfirst (items : List Postfix.Item) :
      Runs (ready items) [snapshot none [] items] (running [] items) := .single rfl
  cases h with
  | @item row item rest _ hrow hrefuses =>
    obtain ⟨rs, stack, hlength, hstack, hruns⟩ := exists_runs_listing hrow (item :: rest)
    have hstop : (running stack (item :: rest)).next? = some (.error fault, done) := by
      simp only [next?, apply_of_refuses hstack hrefuses]
    have hfails : Fails (ready (listing row ++ item :: rest)) _ fault :=
      ⟨(hfirst _).trans hruns, hstop⟩
    exact ⟨_, by simp [hlength], hfails.reports⟩
  | empty =>
    have hfails : Fails (ready []) _ (.missingOperand border) := ⟨hfirst [], rfl⟩
    exact ⟨_, rfl, hfails.reports⟩
  | @leftover row hrow hlong =>
    obtain ⟨rs, stack, hlength, hstack, hruns⟩ := exists_runs_listing hrow []
    rw [List.append_nil] at hruns
    rw [← hstack.length_eq] at hlong ⊢
    have hstop : (running stack []).next? = some (.error (.leftover stack.length), done) := by
      rw [next?, finish_of_long hlong]
    have hfails : Fails (ready (listing row)) _ (.leftover stack.length) :=
      ⟨(hfirst _).trans hruns, hstop⟩
    exact ⟨_, by simp [hlength], hfails.reports⟩

theorem eq_of_failed {rs rs' : List Report} {fault fault' : RunFault}
    (h : rs.map Except.ok ++ [.error fault] = rs'.map .ok ++ [.error fault']) :
    rs = rs' ∧ fault = fault' := by
  obtain ⟨hrs, hfault⟩ := List.append_inj' h rfl
  refine ⟨(List.map_inj_right fun _ _ => Except.ok.inj).1 hrs, ?_⟩
  simpa using hfault

theorem result_ne_failed (rs rs' : List Report) (last : Report) (fault : RunFault) :
    (rs ++ [last]).map Except.ok ≠ rs'.map .ok ++ [.error fault] := by
  intro h
  simpa using congrArg List.getLast? h

/-- Where the machine fails, the listing stops. -/
theorem stops_of_reports {items : List Postfix.Item} {rs : List Report} {fault : RunFault}
    (h : (ready items).reports = rs.map .ok ++ [.error fault]) :
    ∃ n, rs.length = n + 1 ∧ Stops items n fault := by
  rcases Term.value_or_stops items with ⟨t, v, rfl, hv⟩ | ⟨n, fault', hstops⟩
  · obtain ⟨rs', -, -, -, hreports⟩ := reports_of_value_ok hv
    exact absurd (hreports.symm.trans h) (result_ne_failed _ _ _ _)
  · obtain ⟨rs', hlength, hreports⟩ := reports_of_stops hstops
    obtain ⟨rfl, rfl⟩ := eq_of_failed (h.symm.trans hreports)
    exact ⟨n, hlength, hstops⟩

/-- A listing runs to a result exactly if it is that of a term, which then is the only one, and the
term has a value. Any other run ends with one failure, that of the first item that cannot be done on
the terms before it, or for want of exactly one term in the end. -/
theorem computes_listings_of_terms (items : List Postfix.Item) :
    (∀ s, (∃ (rs : List Report) (last : Report), (ready items).reports = (rs ++ [last]).map .ok ∧
        last.operation = some ("The result is " ++ s)) ↔
      ∃ (t : Term) (v : Value), t.items = items ∧
        (∀ text, .operand text ∈ items → ∃ w, Value.read? text.toList = some w) ∧
        t.value = .ok v ∧ v.text = s) ∧
    (∀ t u : Term, t.items = items → u.items = items → t = u) ∧
    (∀ n fault, (∃ rs : List Report, rs.length = n + 1 ∧
        (ready items).reports = rs.map .ok ++ [.error fault]) ↔ Stops items n fault) ∧
    ((∃ rs : List Report, (ready items).reports =
        rs.map .ok ++ [.error (.missingOperand border)]) ↔ items = []) ∧
    ((∃ (t : Term) (v : Value), t.items = items ∧ t.value = .ok v) ∨
      ∃ n fault, Stops items n fault) := by
  refine ⟨fun s => ⟨?_, ?_⟩, fun t u ht hu => ?_, fun n fault => ⟨?_, reports_of_stops⟩, ⟨?_, ?_⟩,
    Term.value_or_stops items⟩
  · rintro ⟨rs, last, hreports, hlast⟩
    rcases Term.value_or_stops items with ⟨t, v, rfl, hv⟩ | ⟨n, fault, hstops⟩
    · obtain ⟨rs', -, -, -, hreports'⟩ := reports_of_value_ok hv
      rw [hreports'] at hreports
      have hsame := congrArg List.getLast? hreports
      simp only [List.map_append, List.map_cons, List.map_nil, List.getLast?_concat,
        Option.some.injEq, Except.ok.injEq] at hsame
      rw [← hsame, Option.some.injEq, String.append_right_inj] at hlast
      exact ⟨t, v, rfl, fun text => Term.exists_read?_of_value hv, hv, hlast⟩
    · obtain ⟨rs', -, hreports'⟩ := reports_of_stops hstops
      exact absurd (hreports.symm.trans hreports') (result_ne_failed _ _ _ _)
  · rintro ⟨t, v, rfl, -, hv, rfl⟩
    obtain ⟨rs, -, -, -, hreports⟩ := reports_of_value_ok hv
    exact ⟨rs, _, hreports, rfl⟩
  · have hrow : [t] = [u] := Term.listing_injective (ht.trans hu.symm)
    exact (List.cons.inj hrow).1
  · rintro ⟨rs, hlength, hreports⟩
    obtain ⟨n', hlength', hstops⟩ := stops_of_reports hreports
    obtain rfl : n' = n := by omega
    exact hstops
  · rintro ⟨rs, hreports⟩
    obtain ⟨n, -, hstops⟩ := stops_of_reports hreports
    exact hstops.eq_nil
  · rintro rfl
    obtain ⟨rs, -, hreports⟩ := reports_of_stops .empty
    exact ⟨rs, hreports⟩

end Machine

end ClockCalc
