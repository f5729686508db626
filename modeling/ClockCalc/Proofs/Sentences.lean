import ClockCalc.Proofs.Parsing

/-! Sentences of the grammar, taken without the limit on nesting, and how they begin. Whatever is
open after some tokens can be closed again, so these tokens begin a sentence. That some tokens begin
none shows without any ranks: what may follow a token depends on whether an operand is due and on
how many groups are open. -/

namespace ClockCalc

open Reducer (depth)

def IsSentence (ts : List Token) : Prop := ∃ p : Phrase, p.HasRank .sum ∧ p.tokens = ts

def BeginsSentence (ts : List Token) : Prop := ∃ rest, IsSentence (ts ++ rest)

namespace Phrase

/-- A phrase inside another one, behind these tokens and under so many levels. Groups, operands of
signs and right operands of `^` are levels. -/
inductive Contains : Phrase → List Token → Nat → Phrase → Prop
  | self {p} : Contains p [] 0 p
  | group {o inner c ho hc before n q} : Contains inner before n q →
      Contains (group o inner c ho hc) (o :: before) (n + 1) q
  | signed {op t operand ht before n q} : Contains operand before n q →
      Contains (signed op t operand ht) (t :: before) (n + 1) q
  | left {op l t r ht before n q} : Contains l before n q → Contains (binary op l t r ht) before n q
  | right {op l t r ht before n q} : Contains r before n q →
      Contains (binary op l t r ht) (l.tokens ++ t :: before) (n + if op = .pow then 1 else 0) q

variable {p q r : Phrase} {before before' : List Token} {m n : Nat}

theorem Contains.trans (h : p.Contains before m q) (h' : q.Contains before' n r) :
    p.Contains (before ++ before') (m + n) r := by
  induction h with
  | self => simpa using h'
  | group h ih =>
    rw [Nat.add_right_comm]
    exact .group (ih h')
  | signed h ih =>
    rw [Nat.add_right_comm]
    exact .signed (ih h')
  | left h ih => exact .left (ih h')
  | right h ih =>
    rw [Nat.add_right_comm, List.append_assoc, List.cons_append]
    exact .right (ih h')

theorem Contains.exists_tokens (h : p.Contains before n q) :
    ∃ after, p.tokens = before ++ q.tokens ++ after := by
  induction h with
  | self => exact ⟨[], by simp⟩
  | @group o inner c ho hc before n q h ih =>
    obtain ⟨after, hafter⟩ := ih
    exact ⟨after ++ [c], by simp [tokens, hafter]⟩
  | signed h ih =>
    obtain ⟨after, hafter⟩ := ih
    exact ⟨after, by simp [tokens, hafter]⟩
  | @left op l t r ht before n q h ih =>
    obtain ⟨after, hafter⟩ := ih
    exact ⟨after ++ t :: r.tokens, by simp [tokens, hafter]⟩
  | right h ih =>
    obtain ⟨after, hafter⟩ := ih
    exact ⟨after, by simp [tokens, hafter]⟩

end Phrase

/-- A sentence begins with the tokens, and after them comes an operand under so many levels. -/
def OperandDue (before : List Token) (levels : Nat) : Prop :=
  ∃ p operand : Phrase, p.HasRank .sum ∧ p.Contains before levels operand ∧ operand.HasRank .unary

theorem beginsSentence_of_contains {p q : Phrase} {before : List Token} {n : Nat}
    (hp : p.HasRank .sum) (h : p.Contains before n q) : BeginsSentence (before ++ q.tokens) := by
  obtain ⟨after, hafter⟩ := h.exists_tokens
  exact ⟨after, p, hp, hafter⟩

theorem BeginsSentence.of_append {ts us : List Token} (h : BeginsSentence (ts ++ us)) :
    BeginsSentence ts := by
  obtain ⟨rest, h⟩ := h
  exact ⟨us ++ rest, by rwa [← List.append_assoc]⟩

namespace Expr

/-- What is open can be closed around an operand. By induction on the frames, from the innermost
one: each makes a phrase that the next one takes. -/
theorem Opened.exists_contains {base : Nat} {stack : List (Frame Expr)} {before : List Token}
    {p : Phrase} (h : Opened base stack before) (hsum : p.HasRank .sum)
    (hfits : ∀ frame ∈ stack.head?, p.HasRank frame.operandRank) :
    ∃ q : Phrase, q.HasRank .sum ∧ q.Contains before (depth stack) p := by
  induction h generalizing p with
  | nil => exact ⟨p, hsum, .self⟩
  | @sign stack before op t hstack ht ih =>
    have hsigned : (Phrase.signed op t p ht).HasRank .unary := .unary (hfits _ rfl)
    obtain ⟨q, hq, hcontains⟩ := ih (hsigned.loosen (by decide))
      fun frame _ => hsigned.loosen frame.operandRank_le_unary
    refine ⟨q, hq, ?_⟩
    simpa [depth_cons, Frame.nests] using hcontains.trans (.signed .self)
  | @group stack before t hstack ht ih =>
    let closing : Token := ⟨.closeGroup, ")", 0⟩
    have hgroup : (Phrase.group t p closing ht rfl).HasRank .primary := .group hsum
    obtain ⟨q, hq, hcontains⟩ := ih (hgroup.loosen (by decide)) fun frame _ =>
      hgroup.loosen (Nat.le_trans frame.operandRank_le_unary (by decide))
    refine ⟨q, hq, ?_⟩
    simpa [depth_cons, Frame.nests] using hcontains.trans (.group .self)
  | @binary stack before op t l hstack hl hn htop ht ih =>
    have hbinary : (Phrase.binary op l t p ht).HasRank op.rank := .binary ht hl (hfits _ rfl)
    obtain ⟨q, hq, hcontains⟩ := ih (hbinary.loosen (Nat.zero_le _)) fun frame hframe =>
      hbinary.loosen (Frame.operandRank_le_rank (htop frame hframe))
    refine ⟨q, hq, ?_⟩
    simpa [depth_cons, Frame.nests] using hcontains.trans (.right .self)

theorem Opened.operandDue {base : Nat} {stack : List (Frame Expr)} {before : List Token}
    (h : Opened base stack before) : OperandDue before (depth stack) := by
  let zero : Phrase := .literal ⟨.literal .integer, "0", 0⟩ rfl
  have hzero : zero.HasRank .primary := .literal
  obtain ⟨p, hp, hcontains⟩ := h.exists_contains (hzero.loosen (by decide)) fun frame _ =>
    hzero.loosen (Nat.le_trans frame.operandRank_le_unary (by decide))
  exact ⟨p, zero, hp, hcontains, hzero.loosen (by decide)⟩

theorem Standing.beginsSentence {base : Nat} {stack : List (Frame Expr)} {operand : Option Expr}
    {before : List Token} (h : Standing base stack operand before) : BeginsSentence before := by
  cases h with
  | between hstack =>
    obtain ⟨p, q, hp, hcontains, -⟩ := hstack.operandDue
    exact (beginsSentence_of_contains hp hcontains).of_append
  | after hstack hprimary _ =>
    obtain ⟨q, hq, hcontains⟩ := hstack.exists_contains (hprimary.loosen (by decide)) fun frame _ =>
      hprimary.loosen (Nat.le_trans frame.operandRank_le_unary (by decide))
    exact beginsSentence_of_contains hq hcontains

end Expr

/-- Between two tokens: whether an operand is due, and how many groups are open. -/
structure Gap where
  due : Bool
  groups : Nat

namespace Gap

def start : Gap := ⟨true, 0⟩

/-- The gap behind the next token, if that token may stand here. -/
def next? (gap : Gap) (t : Token) : Option Gap :=
  match gap.due, t.kind with
  | true, .literal _ => some ⟨false, gap.groups⟩
  | true, .openGroup => some ⟨true, gap.groups + 1⟩
  | true, .operator op => op.sign?.map fun _ => gap
  | false, .operator _ => some ⟨true, gap.groups⟩
  | false, .closeGroup => if gap.groups = 0 then none else some ⟨false, gap.groups - 1⟩
  | _, _ => none

def walk? (gap : Gap) (ts : List Token) : Option Gap := ts.foldlM next? gap

@[simp] theorem walk?_nil (gap : Gap) : gap.walk? [] = some gap := rfl

@[simp] theorem walk?_cons (gap : Gap) (t : Token) (ts : List Token) :
    gap.walk? (t :: ts) = (gap.next? t).bind fun gap' => gap'.walk? ts := rfl

theorem walk?_append (gap : Gap) (ts us : List Token) :
    gap.walk? (ts ++ us) = (gap.walk? ts).bind fun gap' => gap'.walk? us :=
  List.foldlM_append

theorem next?_operand {t : Token} (n : Nat) (hl : t.isLiteral = false) (hg : t.kind ≠ .openGroup)
    (hs : t.sign? = none) : next? ⟨true, n⟩ t = none := by
  cases hk : t.kind with
  | literal form => simp [Token.isLiteral, hk] at hl
  | openGroup => exact absurd hk hg
  | operator op =>
    have hsign : op.sign? = none := by simpa [Token.sign?, Token.binaryOp?, hk] using hs
    simp [next?, hk, hsign]
  | closeGroup => simp [next?, hk]
  | blank => simp [next?, hk]

theorem next?_after_operand {t : Token} (n : Nat) (ho : t.binaryOp? = none)
    (hc : t.kind = .closeGroup → n = 0) : next? ⟨false, n⟩ t = none := by
  cases hk : t.kind with
  | operator op => simp [Token.binaryOp?, hk] at ho
  | closeGroup => simp [next?, hk, hc hk]
  | literal form => simp [next?, hk]
  | openGroup => simp [next?, hk]
  | blank => simp [next?, hk]

/-- Every phrase leads from a gap where an operand is due to one behind an operand. -/
theorem walk?_tokens (p : Phrase) (n : Nat) : walk? ⟨true, n⟩ p.tokens = some ⟨false, n⟩ := by
  induction p generalizing n with
  | literal t ht =>
    obtain ⟨form, hk⟩ := Phrase.kind_of_isLiteral ht
    simp [Phrase.tokens, next?, hk]
  | group o inner c ho hc ih => simp [Phrase.tokens, next?, ho, hc, walk?_append, ih]
  | signed op t operand ht ih =>
    obtain ⟨b, hk, hb⟩ := Phrase.kind_of_sign? ht
    simp [Phrase.tokens, next?, hk, hb, ih]
  | binary op l t r ht ihl ihr =>
    have hk := Phrase.kind_of_binaryOp? ht
    simp [Phrase.tokens, next?, hk, walk?_append, ihl, ihr]

end Gap

theorem IsSentence.walk? {ts : List Token} (h : IsSentence ts) :
    Gap.start.walk? ts = some ⟨false, 0⟩ := by
  obtain ⟨p, -, rfl⟩ := h
  exact Gap.walk?_tokens p 0

/-- No sentence goes on with a token that may not stand in the gap. -/
theorem not_beginsSentence {ts : List Token} {t : Token} {gap : Gap}
    (hwalk : Gap.start.walk? ts = some gap) (ht : gap.next? t = none) :
    ¬ BeginsSentence (ts ++ [t]) := by
  rintro ⟨rest, h⟩
  have hend := h.walk?
  rw [List.append_assoc, List.singleton_append, Gap.walk?_append, hwalk, Option.bind_some,
    Gap.walk?_cons, ht] at hend
  cases hend

end ClockCalc
