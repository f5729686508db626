import ClockCalc.Proofs.Decoding

/-! Operands and operators in a listing. The listing of a term has one operand more than operators
between two operands, and nowhere on the way have the operators caught up with the operands. So the
two counts tell how many terms there are in a row. -/

namespace ClockCalc

namespace Postfix

def Item.isOperand : Item → Bool
  | operand _ => true
  | mark _ => false

/-- An operator that makes one value of two. -/
def Item.isBinary : Item → Bool
  | mark (.binary _) => true
  | _ => false

def operands (items : List Item) : Nat := items.countP Item.isOperand

def binaries (items : List Item) : Nat := items.countP Item.isBinary

@[simp] theorem operands_append (as bs : List Item) :
    operands (as ++ bs) = operands as + operands bs := List.countP_append

@[simp] theorem binaries_append (as bs : List Item) :
    binaries (as ++ bs) = binaries as + binaries bs := List.countP_append

@[simp] theorem operands_mark (mark : Mark) : operands [.mark mark] = 0 := rfl

@[simp] theorem binaries_sign (op : UnaryOp) : binaries [.mark (.sign op)] = 0 := rfl

@[simp] theorem binaries_binary (op : BinaryOp) : binaries [.mark (.binary op)] = 1 := rfl

end Postfix

namespace Term

open Postfix (operands binaries)

theorem operands_items (t : Term) : operands t.items = binaries t.items + 1 := by
  induction t with
  | operand text => rfl
  | signed op t ih => simp [items, ih]
  | binary op left right ihl ihr =>
    simp only [items, Postfix.operands_append, Postfix.binaries_append, Postfix.operands_mark,
      Postfix.binaries_binary]
    omega

/-- A row of terms has one operand more for each of them. -/
theorem operands_listing (row : List Term) :
    operands (listing row) = binaries (listing row) + row.length := by
  induction row with
  | nil => rfl
  | cons t row ih =>
    have ht := t.operands_items
    simp only [listing, Postfix.operands_append, Postfix.binaries_append, List.length_cons]
    omega

/-- By induction on the term. A part that breaks off in the right operand has all of the left one,
and is ahead by as much already. -/
theorem binaries_lt_operands {t : Term} {part : List Postfix.Item} (h : part <+: t.items)
    (hne : part ≠ []) : binaries part < operands part := by
  induction t generalizing part with
  | operand text =>
    rcases List.prefix_cons_iff.1 h with rfl | ⟨rest, rfl, hrest⟩
    · exact absurd rfl hne
    · obtain rfl := List.prefix_nil.1 hrest
      exact Nat.one_pos
  | signed op t ih =>
    rcases List.prefix_concat_iff.1 h with rfl | hpart
    · have ht := t.operands_items
      simp [ht]
    · exact ih hpart hne
  | binary op left right ihl ihr =>
    have hl := left.operands_items
    have hr := right.operands_items
    rcases List.prefix_concat_iff.1 h with rfl | hpart
    · simp only [Postfix.operands_append, Postfix.binaries_append, Postfix.operands_mark,
        Postfix.binaries_binary]
      omega
    · rcases List.prefix_or_prefix_of_prefix hpart (List.prefix_append _ _) with hleft | ⟨rest, rfl⟩
      · exact ihl hleft hne
      · have hrest : rest <+: right.items := (List.prefix_append_right_inj _).1 hpart
        have hle : binaries rest ≤ operands rest := by
          by_cases hnil : rest = []
          · rw [hnil]
            decide
          · exact Nat.le_of_lt (ihr hrest hnil)
        simp only [Postfix.operands_append, Postfix.binaries_append]
        omega

end Term

end ClockCalc
