import ClockCalc.Proofs.Execution
import ClockCalc.Proofs.Except

/-! Terms on the stack machine. The listing of a term, run above any stack and before any other
items, leaves one value more on the stack and all else as it was, or stops where the computation of
the term stops. -/

namespace ClockCalc

/-- What a listing stands for: operands by their texts, and operators with what they join. -/
inductive Term where
  | operand (text : String)
  | signed (op : UnaryOp) (t : Term)
  | binary (op : BinaryOp) (left right : Term)
  deriving DecidableEq

namespace Term

/-- Operands in their order, each operator after its operands. -/
def items : Term → List Postfix.Item
  | operand text => [.operand text]
  | signed op t => t.items ++ [.mark (.sign op)]
  | binary op left right => left.items ++ right.items ++ [.mark (.binary op)]

/-- The value from the operands up. No positions are known. -/
def value : Term → Except RunFault Value
  | operand text => Machine.operand text
  | signed op t => do
    let v ← t.value
    (v.applySign op).mapError fun cause => .arithmetic cause none
  | binary op left right => do
    let v ← left.value
    let w ← right.value
    (Value.apply op v w).mapError (·.located none)

end Term

namespace Machine

/-- The machine works off `count` items and has the value on top of the stack, or it fails. -/
inductive Delivers (m : Machine) (count : Nat) (stack : List Slot) (rest : List Postfix.Item) :
    Except RunFault Value → Prop where
  | value {text : String} {v : Value} {rs : List Report} (hc : rs.length = count)
      (hs : Runs m rs (running (⟨text, v⟩ :: stack) rest)) : Delivers m count stack rest (.ok v)
  | fault {rs : List Report} {f : RunFault} (h : Fails m rs f) :
      Delivers m count stack rest (.error f)

theorem Delivers.bind {m : Machine} {n k : Nat} {stack stack' : List Slot}
    {rest rest' : List Postfix.Item} {x : Except RunFault Value}
    {f : Value → Except RunFault Value} (h : Delivers m n stack' rest' x)
    (hf : ∀ s : Slot, Delivers (running (s :: stack') rest') k stack rest (f s.value)) :
    Delivers m (n + k) stack rest (x >>= f) := by
  cases h with
  | fault h => exact .fault h
  | @value text v rs hc hs =>
    have h' := hf ⟨text, v⟩
    rw [ok_bind]
    cases hx : f v with
    | ok w =>
      simp only [hx] at h'
      cases h' with
      | value hc' hs' => exact .value (by simp [hc, hc']) (hs.trans hs')
    | error fault =>
      simp only [hx] at h'
      cases h' with
      | fault h' => exact .fault (hs.fails h')

theorem Delivers.of_apply_ok {below stack : List Slot} {item : Postfix.Item}
    (rest : List Postfix.Item) {operation text : String} {v : Value}
    (h : apply below item = .ok (operation, ⟨text, v⟩ :: stack)) :
    Delivers (running below (item :: rest)) 1 stack rest (.ok v) := by
  have hn : (running below (item :: rest)).next? =
      some (.ok (snapshot (some operation) (⟨text, v⟩ :: stack) rest),
        running (⟨text, v⟩ :: stack) rest) := by
    simp only [next?, h]
  exact .value rfl (.single hn)

theorem Delivers.of_apply_error {below : List Slot} {item : Postfix.Item} {f : RunFault}
    (stack : List Slot) (rest : List Postfix.Item) (h : apply below item = .error f) :
    Delivers (running below (item :: rest)) 1 stack rest (.error f) := by
  have hn : (running below (item :: rest)).next? = some (.error f, done) := by
    simp only [next?, h]
  exact .fault ⟨.refl _, hn⟩

theorem delivers_operand (text : String) (stack : List Slot) (rest : List Postfix.Item) :
    Delivers (running stack (.operand text :: rest)) 1 stack rest (operand text) := by
  cases hv : operand text with
  | ok v =>
    have ha : apply stack (.operand text) = .ok ("Stack " ++ text, ⟨text, v⟩ :: stack) := by
      simp [apply, hv]
    exact .of_apply_ok rest ha
  | error f => exact .of_apply_error stack rest (by simp [apply, hv])

theorem delivers_sign (op : UnaryOp) (s : Slot) (stack : List Slot) (rest : List Postfix.Item) :
    Delivers (running (s :: stack) (.mark (.sign op) :: rest)) 1 stack rest
      ((s.value.applySign op).mapError fun cause => .arithmetic cause none) := by
  cases hw : s.value.applySign op with
  | ok w =>
    have ha : apply (s :: stack) (.mark (.sign op)) =
        .ok (op.symbol ++ s.text ++ " = " ++ (slot (.sign op) w).text,
          ⟨(slot (.sign op) w).text, w⟩ :: stack) := by
      simp only [apply, hw]
      rfl
    exact .of_apply_ok rest ha
  | error cause => exact .of_apply_error stack rest (by simp [apply, hw])

theorem delivers_binary (op : BinaryOp) (s s' : Slot) (stack : List Slot)
    (rest : List Postfix.Item) :
    Delivers (running (s' :: s :: stack) (.mark (.binary op) :: rest)) 1 stack rest
      ((Value.apply op s.value s'.value).mapError (·.located none)) := by
  cases hw : Value.apply op s.value s'.value with
  | ok w =>
    have ha : apply (s' :: s :: stack) (.mark (.binary op)) =
        .ok (equation s.text op s'.text (slot (.binary op) w).text,
          ⟨(slot (.binary op) w).text, w⟩ :: stack) := by
      simp only [apply, hw]
      rfl
    exact .of_apply_ok rest ha
  | error fault => exact .of_apply_error stack rest (by simp [apply, hw])

/-- The listing of a term does on the machine what the term says, whatever is below and after. -/
theorem delivers_items (t : Term) (stack : List Slot) (rest : List Postfix.Item) :
    Delivers (running stack (t.items ++ rest)) t.items.length stack rest t.value := by
  induction t generalizing stack rest with
  | operand text => exact delivers_operand text stack rest
  | signed op t ih =>
    simp only [Term.items, Term.value, List.append_assoc, List.length_append]
    refine (ih stack _).bind fun s => ?_
    exact delivers_sign op s stack rest
  | binary op left right ihl ihr =>
    simp only [Term.items, Term.value, List.append_assoc, List.length_append]
    refine (ihl stack _).bind fun s => (ihr (s :: stack) _).bind fun s' => ?_
    exact delivers_binary op s s' stack rest

/-- The first report tells of no item, so there is one report more than there are items. -/
theorem delivers_listing (t : Term) :
    Delivers (ready t.items) (t.items.length + 1) [] [] t.value := by
  have hfirst : Runs (ready t.items) [snapshot none [] t.items] (running [] t.items) :=
    .single rfl
  have h := delivers_items t [] []
  rw [List.append_nil] at h
  generalize t.value = x at h
  cases h with
  | value hc hs => exact .value (by simp [hc]) (hfirst.trans hs)
  | fault hf => exact .fault (hfirst.fails hf)

theorem reports_of_value_ok {t : Term} {v : Value} (h : t.value = .ok v) :
    ∃ (rs : List Report) (text : String), rs.length = t.items.length + 1 ∧
      Runs (ready t.items) rs (running [⟨text, v⟩] []) ∧
      (ready t.items).reports =
        (rs ++ [Report.mk (some ("The result is " ++ v.text)) none none]).map .ok := by
  have hd := delivers_listing t
  rw [h] at hd
  cases hd with
  | value hc hs => exact ⟨_, _, hc, hs, (hs.trans (.single rfl)).reports⟩

theorem reports_of_value_error {t : Term} {fault : RunFault} (h : t.value = .error fault) :
    ∃ rs : List Report, (ready t.items).reports = rs.map .ok ++ [.error fault] := by
  have hd := delivers_listing t
  rw [h] at hd
  cases hd with
  | fault hf => exact ⟨_, hf.reports⟩

end Machine

end ClockCalc
