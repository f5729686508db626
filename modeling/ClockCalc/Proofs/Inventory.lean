import ClockCalc.Proofs.Listing
import ClockCalc.Proofs.Surplus

/-! What becomes of the tokens in a listing. The literals stay in their order. The operators move
behind their operands, but each is there once, and whether it is a sign shows from the token before
it. Both follow the derivation of the tokens, which has them in their order and makes the items. -/

namespace ClockCalc

namespace Mark

/-- The symbol alone, without the arity that the text adds. -/
def symbol : Mark → String
  | sign op => op.symbol
  | binary op => op.symbol

def isSign : Mark → Bool
  | sign _ => true
  | binary _ => false

end Mark

/-- The symbols of the operators in their order, each with whether an operand is due in its place:
after an opening parenthesis or another operator, and at the start if one is due there. -/
def Token.operatorsFrom : Bool → List Token → List (String × Bool)
  | _, [] => []
  | due, t :: ts =>
    match t.binaryOp? with
    | some op => (op.symbol, due) :: operatorsFrom true ts
    | none => operatorsFrom (t.kind = .openGroup) ts

namespace Postfix

namespace Item

def operand? : Item → Option String
  | operand text => some text
  | mark _ => none

def mark? : Item → Option Mark
  | operand _ => none
  | mark m => some m

end Item

/-- The items account for all tokens but those of groups. -/
structure Lists (ts : List Token) (items : List Item) : Prop where
  operands : items.filterMap Item.operand? = (ts.filter Token.isLiteral).map Token.lexeme
  length : items.length = Phrase.marks ts
  marks : ∃ ms : List Mark, ms.Perm (items.filterMap Item.mark?) ∧
    ms.map (fun m => (m.symbol, m.isSign)) = Token.operatorsFrom true ts
  ahead : ∀ part, part <+: items → part ≠ [] → binaries part < Postfix.operands part
  balance : Postfix.operands items = binaries items + 1

end Postfix

namespace Expr

theorem operands_items (e : Expr) :
    e.items.filterMap Postfix.Item.operand? = e.literals.map Token.lexeme := by
  induction e with
  | literal t => rfl
  | signed op e position ih => simp [items, literals, ih, Postfix.Item.operand?]
  | binary op left right position ihl ihr =>
    simp [items, literals, ihl, ihr, Postfix.Item.operand?]

theorem length_items (e : Expr) : e.items.length = e.size := by
  induction e with
  | literal t => rfl
  | signed op e position ih => simp [items, size, ih]
  | binary op left right position ihl ihr =>
    simp only [items, size, List.length_append, List.length_singleton, ihl, ihr]

end Expr

theorem BinaryOp.symbol_of_sign? {b : BinaryOp} {op : UnaryOp} (h : b.sign? = some op) :
    b.symbol = op.symbol := by
  cases b <;> cases h <;> rfl

namespace Phrase

open Token (operatorsFrom)
open Postfix.Item (mark?)

/-- The marks in the order of the tokens. -/
def marksInOrder : Phrase → List Mark
  | literal _ _ => []
  | group _ inner _ _ _ => inner.marksInOrder
  | signed op _ operand _ => .sign op :: operand.marksInOrder
  | binary op left _ right _ => left.marksInOrder ++ .binary op :: right.marksInOrder

theorem filter_isLiteral_tokens (p : Phrase) :
    p.tokens.filter Token.isLiteral = p.tree.literals := by
  induction p with
  | literal t ht => simp [tokens, tree, Expr.literals, ht]
  | group o p c ho hc ih =>
    simp [tokens, tree, ih, Token.isLiteral, ho, hc]
  | signed op t p ht ih =>
    obtain ⟨b, hk, -⟩ := kind_of_sign? ht
    simp [tokens, tree, Expr.literals, ih, Token.isLiteral, hk]
  | binary op l t r ht ihl ihr =>
    have hk := kind_of_binaryOp? ht
    simp [tokens, tree, Expr.literals, ihl, ihr, Token.isLiteral, hk]

/-- An operator moves past the marks of its right operand, or of its only one. -/
theorem marksInOrder_perm (p : Phrase) :
    p.marksInOrder.Perm (p.tree.items.filterMap mark?) := by
  induction p with
  | literal t ht => exact .refl _
  | group o p c ho hc ih => exact ih
  | signed op t p ht ih =>
    have hmoved : (Mark.sign op :: p.marksInOrder).Perm (p.marksInOrder ++ [.sign op]) :=
      (List.perm_append_singleton _ _).symm
    simpa [marksInOrder, tree, Expr.items, mark?] using hmoved.trans (ih.append_right _)
  | binary op l t r ht ihl ihr =>
    have hmoved : (Mark.binary op :: r.marksInOrder).Perm (r.marksInOrder ++ [.binary op]) :=
      (List.perm_append_singleton _ _).symm
    simpa [marksInOrder, tree, Expr.items, mark?] using
      ihl.append (hmoved.trans (ihr.append_right _))

/-- In a phrase an operand is due first, and none after it. -/
theorem operatorsFrom_tokens (p : Phrase) (rest : List Token) :
    operatorsFrom true (p.tokens ++ rest) =
      p.marksInOrder.map (fun m => (m.symbol, m.isSign)) ++ operatorsFrom false rest := by
  induction p generalizing rest with
  | literal t ht =>
    obtain ⟨form, hk⟩ := kind_of_isLiteral ht
    simp [tokens, marksInOrder, operatorsFrom, Token.binaryOp?, hk]
  | group o p c ho hc ih =>
    simp [tokens, marksInOrder, operatorsFrom, Token.binaryOp?, ho, hc, ih]
  | signed op t p ht ih =>
    obtain ⟨b, hk, hb⟩ := kind_of_sign? ht
    have hsymbol : b.symbol = op.symbol := BinaryOp.symbol_of_sign? hb
    simp [tokens, marksInOrder, operatorsFrom, Token.binaryOp?, hk, ih, hsymbol, Mark.symbol,
      Mark.isSign]
  | binary op l t r ht ihl ihr =>
    simp [tokens, marksInOrder, operatorsFrom, ht, ihl, ihr, Mark.symbol, Mark.isSign]

theorem lists (p : Phrase) : Postfix.Lists p.tokens p.tree.items where
  operands := by rw [Expr.operands_items, filter_isLiteral_tokens]
  length := by rw [Expr.length_items, marks_tokens]
  marks := by
    have hplaces := p.operatorsFrom_tokens []
    rw [List.append_nil] at hplaces
    exact ⟨p.marksInOrder, p.marksInOrder_perm, by simp [hplaces, operatorsFrom]⟩
  ahead part hpart hne := by
    rw [← Expr.items_term] at hpart
    exact Term.binaries_lt_operands hpart hne
  balance := by
    rw [← Expr.items_term]
    exact Term.operands_items _

end Phrase

namespace Postfix

/-- A listing has the literals of the tokens in their order and each operator once, as a sign
exactly where an operand was due. Nowhere in it are there too few operands. -/
theorem lists_every_token {wanted : Option Kind} {ts : List Token} {p : Postfix}
    (h : ofTokens wanted ts = .ok p) : Lists ts p.items := by
  obtain ⟨e, he, hfold, -⟩ := exists_tree_of_ofTokens h
  obtain ⟨phrase, ⟨-, -, rfl, rfl⟩⟩ := Expr.exists_derivation he
  rw [items_of_fold hfold]
  exact phrase.lists

theorem lists_signs_and_differences :
    ∃ (ts : List Token) (p : Postfix), Token.ofText "-2*(0:30--1:00)" = .ok ts ∧
      ofTokens (some .time) ts = .ok p ∧
      p.items.map Item.text = ["2", "-₁", "0:30", "1:00", "-₁", "-₂", "*"] ∧
      Lists ts p.items := by
  have h : ofText (some .time) "-2*(0:30--1:00)" =
      .ok ⟨[.operand "2", .mark (.sign .minus), .operand "0:30", .operand "1:00",
        .mark (.sign .minus), .mark (.binary .sub), .mark (.binary .mul)], .time⟩ := rfl
  obtain ⟨ts, hts, hp⟩ := bind_eq_ok_iff.1 h
  exact ⟨ts, _, mapError_eq_ok_iff.1 hts, hp, rfl, lists_every_token hp⟩

end Postfix

end ClockCalc
