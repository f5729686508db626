import ClockCalc.Proofs.Surplus
import Mathlib.Data.List.Forall2

/-! What the reports of a run show. The items behind the machine list a row of terms, and the stack
shows one text for each term of the row: an operand as it was written, a computed value in full. So
a report after some items shows what these items come to and which ones are left. The run ends with
one report more, or one failure, and is silent then. -/

namespace ClockCalc

/-- Products, quotients and powers lose a `.0`. -/
def BinaryOp.trims : BinaryOp → Bool
  | mul | div | pow => true
  | add | sub => false

/-- The text that stands on the stack for a term with this value. -/
def Term.shown (v : Value) : Term → String
  | operand text => text
  | signed _ _ => v.fullText false
  | binary op _ _ => v.fullText op.trims

namespace Machine

open Term (listing push)
open Postfix (operands binaries)

/-- The slot holds the value of the term and its text. -/
structure Displays (slot : Slot) (t : Term) : Prop where
  value : t.value = .ok slot.value
  text : slot.text = t.shown slot.value

/-- The report after the first `k` items shows the stack, which displays the row of terms that these
items list, and the items left. -/
structure Shows (items : List Postfix.Item) (k : Nat) (stack : List Slot) (row : List Term)
    (r : Report) : Prop where
  behind : listing row = items.take k
  displays : List.Forall₂ Displays stack row
  height : stack.length + binaries (items.take k) = operands (items.take k)
  operation : r.operation = none ↔ k = 0
  stackText : r.stack = some (" ".intercalate (border :: stack.reverse.map Slot.text))
  inputText : r.input = some (" ".intercalate ((items.drop k).map Postfix.Item.text ++ [border]))

/-- The report that tells the value of the one term that is listed. -/
def IsResult (items : List Postfix.Item) (last : Except RunFault Report) : Prop :=
  ∃ (t : Term) (v : Value), t.items = items ∧ t.value = .ok v ∧
    last = .ok ⟨some ("The result is " ++ v.text), none, none⟩

/-- The reports from the one after `start` items on, and what comes last. -/
structure IsTrace (items : List Postfix.Item) (start : Nat) (rs : List Report)
    (last : Except RunFault Report) : Prop where
  begins : 0 < rs.length
  shows : ∀ k r, rs[k]? = some r → ∃ stack row, Shows items (k + start) stack row r
  length : rs.length + start ≤ items.length + 1
  ends : (∃ fault, last = .error fault) ∨
    rs.length + start = items.length + 1 ∧ IsResult items last

theorem text_slot_binary (op : BinaryOp) (v : Value) :
    (slot (.binary op) v).text = v.fullText op.trims := by
  cases op <;> rfl

/-- What one item does to the stack it does to the row. -/
theorem displays_of_apply {stack stack' : List Slot} {row : List Term} {item : Postfix.Item}
    {operation : String} (h : List.Forall₂ Displays stack row)
    (ha : apply stack item = .ok (operation, stack')) :
    List.Forall₂ Displays stack' (push row item) ∧
      listing (push row item) = listing row ++ [item] := by
  cases item with
  | operand text =>
    obtain ⟨v, hv, ha⟩ := bind_eq_ok_iff.1 ha
    cases ha
    exact ⟨.cons ⟨hv, rfl⟩ h, rfl⟩
  | mark mark =>
    cases mark with
    | sign op =>
      cases h with
      | nil => cases ha
      | @cons s t stack row hs hstack =>
        obtain ⟨w, hw, ha⟩ := bind_eq_ok_iff.1 ha
        cases ha
        have hvalue : (Term.signed op t).value = .ok w := by
          rw [Term.value, hs.value, ok_bind, hw]
        refine ⟨.cons ⟨hvalue, rfl⟩ hstack, ?_⟩
        simp only [push, listing, Term.items, List.append_assoc]
    | binary op =>
      cases h with
      | nil => cases ha
      | @cons right t stack row hright hstack =>
        cases hstack with
        | nil => cases ha
        | @cons left u stack row hleft hstack =>
          obtain ⟨w, hw, ha⟩ := bind_eq_ok_iff.1 ha
          cases ha
          have hvalue : (Term.binary op u t).value = .ok w := by
            rw [Term.value, hleft.value, ok_bind, hright.value, ok_bind, hw]
          refine ⟨.cons ⟨hvalue, text_slot_binary op w⟩ hstack, ?_⟩
          simp only [push, listing, Term.items, List.append_assoc]

theorem shows_snapshot {stack : List Slot} {row : List Term} {operation : Option String}
    (h : List.Forall₂ Displays stack row) (hop : operation = none ↔ (listing row).length = 0)
    (rest : List Postfix.Item) :
    Shows (listing row ++ rest) (listing row).length stack row
      (snapshot operation stack rest) where
  behind := by rw [List.take_left]
  displays := h
  height := by
    have hrow := Term.operands_listing row
    rw [List.take_left, h.length_eq]
    omega
  operation := hop
  stackText := rfl
  inputText := by rw [List.drop_left]; rfl

theorem IsTrace.single {items : List Postfix.Item} {k : Nat} {stack : List Slot} {row : List Term}
    {r : Report} {last : Except RunFault Report} (h : Shows items k stack row r)
    (hk : k ≤ items.length)
    (hends : (∃ fault, last = .error fault) ∨ k = items.length ∧ IsResult items last) :
    IsTrace items k [r] last where
  begins := Nat.one_pos
  shows k' r' hr := by
    cases k' with
    | zero =>
      cases hr
      exact ⟨stack, row, by rwa [Nat.zero_add]⟩
    | succ k' => cases hr
  length := by
    rw [List.length_singleton, Nat.add_comm]
    exact Nat.succ_le_succ hk
  ends := hends.imp_right fun ⟨hall, hlast⟩ => ⟨by rw [hall, List.length_singleton, Nat.add_comm],
    hlast⟩

theorem IsTrace.cons {items : List Postfix.Item} {k : Nat} {stack : List Slot} {row : List Term}
    {r : Report} {rs : List Report} {last : Except RunFault Report} (h : Shows items k stack row r)
    (hrs : IsTrace items (k + 1) rs last) : IsTrace items k (r :: rs) last where
  begins := Nat.succ_pos _
  shows k' r' hr := by
    cases k' with
    | zero =>
      cases hr
      exact ⟨stack, row, by rwa [Nat.zero_add]⟩
    | succ k' =>
      obtain ⟨stack', row', hshows⟩ := hrs.shows k' r' hr
      exact ⟨stack', row', by rwa [Nat.add_right_comm, Nat.add_assoc]⟩
  length := by
    have hlength := hrs.length
    rw [List.length_cons]
    omega
  ends := hrs.ends.imp_right fun ⟨hall, hlast⟩ => ⟨by rw [List.length_cons]; omega, hlast⟩

theorem isResult_or_error_of_finish {stack : List Slot} {row : List Term}
    (h : List.Forall₂ Displays stack row) :
    (∃ fault, finish stack = .error fault) ∨ IsResult (listing row) (finish stack) := by
  cases h with
  | nil => exact .inl ⟨_, rfl⟩
  | cons hs hstack =>
    cases hstack with
    | nil => exact .inr ⟨_, _, rfl, hs.value, rfl⟩
    | cons _ _ => exact .inl ⟨_, rfl⟩

/-- By induction on the items left. The first report is the one that the machine came here with. -/
theorem exists_trace (rest : List Postfix.Item) {stack : List Slot} {row : List Term}
    {operation : Option String} (h : List.Forall₂ Displays stack row)
    (hop : operation = none ↔ (listing row).length = 0) :
    ∃ rs last, IsTrace (listing row ++ rest) (listing row).length rs last ∧
      .ok (snapshot operation stack rest) :: (running stack rest).reports =
        rs.map .ok ++ [last] := by
  induction rest generalizing stack row operation with
  | nil =>
    have hnext : (running stack []).next? = some (finish stack, done) := rfl
    have hends := isResult_or_error_of_finish h
    have hshows := shows_snapshot h hop []
    refine ⟨[snapshot operation stack []], finish stack, .single hshows ?_ ?_, ?_⟩
    · simp
    · simpa using hends
    · rw [reports_cons hnext]
      rfl
  | cons item rest ih =>
    have hshows := shows_snapshot h hop (item :: rest)
    cases ha : apply stack item with
    | error fault =>
      have hnext : (running stack (item :: rest)).next? = some (.error fault, done) := by
        simp only [next?, ha]
      refine ⟨[snapshot operation stack (item :: rest)], .error fault,
        .single hshows ?_ (.inl ⟨fault, rfl⟩), ?_⟩
      · simp
      · rw [reports_cons hnext]
        rfl
    | ok result =>
      obtain ⟨told, stack'⟩ := result
      obtain ⟨hstack', hitems⟩ := displays_of_apply h ha
      have hnext : (running stack (item :: rest)).next? =
          some (.ok (snapshot (some told) stack' rest), running stack' rest) := by
        simp only [next?, ha]
      have htold : some told = none ↔ (listing (push row item)).length = 0 := by
        simp [hitems]
      obtain ⟨rs, last, htrace, hreports⟩ := ih hstack' htold
      rw [hitems, List.append_assoc, List.length_append] at htrace
      refine ⟨snapshot operation stack (item :: rest) :: rs, last, .cons hshows htrace, ?_⟩
      rw [reports_cons hnext, hreports]
      rfl

/-- Whatever the items, there is a report before the first one and after each that is done, and then
one report more, or the failure of the next item or of what is left in the end. Asked again, the
machine gives nothing. -/
theorem traces_show_the_stack (items : List Postfix.Item) :
    ∃ (rs : List Report) (last : Except RunFault Report), IsTrace items 0 rs last ∧
      (∀ fault, last = .error fault → Term.Stops items (rs.length - 1) fault) ∧
      (∀ n, ((ready items).take n).1 = (rs.map Except.ok ++ [last]).take n) ∧
      ∀ n, rs.length < n → ((ready items).take n).2.next? = none := by
  have hnext : (ready items).next? = some (.ok (snapshot none [] items), running [] items) := rfl
  have hop : (none : Option String) = none ↔ (listing []).length = 0 := by simp [listing]
  obtain ⟨rs, last, htrace, hreports⟩ := exists_trace items .nil hop
  rw [← reports_cons hnext] at hreports
  refine ⟨rs, last, htrace, ?_, ?_, ?_⟩
  · rintro fault rfl
    obtain ⟨n, hn, hstops⟩ := stops_of_reports hreports
    rw [hn]
    exact hstops
  · intro n
    rw [fst_take, hreports]
  · intro n hn
    have hlength : (ready items).reports.length ≤ n := by
      rw [hreports, List.length_append, List.length_map, List.length_singleton]
      exact hn
    rw [take_of_length_le hlength]
    rfl

-- a quotient is trimmed, and one operand too few ends the run
example :
    (ready [.operand "6", .operand "2", .mark (.binary .div), .mark (.binary .add)]).reports =
      [.ok ⟨none, some "$", some "6 2 / +₂ $"⟩,
        .ok ⟨some "Stack 6", some "$ 6", some "2 / +₂ $"⟩,
        .ok ⟨some "Stack 2", some "$ 6 2", some "/ +₂ $"⟩,
        .ok ⟨some "6 / 2 = 3", some "$ 3", some "+₂ $"⟩,
        .error (.missingOperand "+₂")] := by
  decide +kernel

end Machine

end ClockCalc
