import ClockCalc.Proofs.Tree

/-! The grammar of expressions. A phrase is a derivation as data: it keeps every token, groups
included, and forgets only which rules merely pass from one rank to the next tighter one, for
those are forced. Within the grammar a phrase is determined by its tokens and its tree. -/

namespace ClockCalc

/-- The sign that the token stands for before an operand. -/
def Token.sign? (t : Token) : Option UnaryOp := t.binaryOp?.bind BinaryOp.sign?

inductive Phrase where
  | literal (t : Token) (ht : t.isLiteral = true)
  | group (opening : Token) (inner : Phrase) (closing : Token)
      (ho : opening.kind = .openGroup) (hc : closing.kind = .closeGroup)
  | signed (op : UnaryOp) (t : Token) (operand : Phrase) (ht : t.sign? = some op)
  | binary (op : BinaryOp) (left : Phrase) (t : Token) (right : Phrase)
      (ht : t.binaryOp? = some op)

/-- The syntactic ranks, from the loosest to the tightest. -/
inductive Rank where
  | sum | product | unary | power | primary

namespace Phrase

def tokens : Phrase → List Token
  | literal t _ => [t]
  | group opening inner closing _ _ => opening :: (inner.tokens ++ [closing])
  | signed _ t operand _ => t :: operand.tokens
  | binary _ left t right _ => left.tokens ++ t :: right.tokens

def tree : Phrase → Expr
  | literal t _ => .literal t
  | group _ inner _ _ _ => inner.tree
  | signed op t operand _ => .signed op operand.tree t.position
  | binary op left t right _ => .binary op left.tree right.tree t.position

/-- The grammar. Sums and products group to the left, powers to the right; a sign holds less
tightly than `^` on its right, but the right operand of `^` may begin with one. -/
inductive HasRank : Phrase → Rank → Prop
  | sumOfProduct {p} : HasRank p .product → HasRank p .sum
  | sum {op l t r ht} : op = .add ∨ op = .sub → HasRank l .sum → HasRank r .product →
      HasRank (binary op l t r ht) .sum
  | productOfUnary {p} : HasRank p .unary → HasRank p .product
  | product {op l t r ht} : op = .mul ∨ op = .div → HasRank l .product → HasRank r .unary →
      HasRank (binary op l t r ht) .product
  | unaryOfPower {p} : HasRank p .power → HasRank p .unary
  | unary {op t p ht} : HasRank p .unary → HasRank (signed op t p ht) .unary
  | powerOfPrimary {p} : HasRank p .primary → HasRank p .power
  | power {l t r ht} : HasRank l .primary → HasRank r .unary →
      HasRank (binary .pow l t r ht) .power
  | literal {t ht} : HasRank (literal t ht) .primary
  | group {o p c ho hc} : HasRank p .sum → HasRank (group o p c ho hc) .primary

/-- The most levels that enclose a unary phrase in this one. Groups, the operands of signs and
the right operands of `^` are levels. -/
def nesting : Phrase → Nat
  | literal _ _ => 0
  | group _ inner _ _ _ => inner.nesting + 1
  | signed _ _ operand _ => operand.nesting + 1
  | binary op left _ right _ => max left.nesting (right.nesting + if op = .pow then 1 else 0)

/-- A derivation of the tokens with this tree, within the limit on nesting. -/
structure Derives (p : Phrase) (ts : List Token) (e : Expr) : Prop where
  rank : p.HasRank .sum
  shallow : p.nesting ≤ Reducer.maxNesting
  tokens : p.tokens = ts
  tree : p.tree = e

def opens (ts : List Token) : Nat := ts.countP (·.kind = .openGroup)

def closes (ts : List Token) : Nat := ts.countP (·.kind = .closeGroup)

theorem tokens_ne_nil (p : Phrase) : p.tokens ≠ [] := by
  cases p <;> simp [tokens]

theorem kind_of_binaryOp? {t : Token} {op : BinaryOp} (h : t.binaryOp? = some op) :
    t.kind = .operator op := by
  unfold Token.binaryOp? at h
  split at h
  · cases h
    assumption
  · cases h

theorem kind_of_sign? {t : Token} {op : UnaryOp} (h : t.sign? = some op) :
    ∃ b, t.kind = .operator b ∧ b.sign? = some op := by
  obtain ⟨b, hb, hs⟩ := Option.bind_eq_some_iff.1 h
  exact ⟨b, kind_of_binaryOp? hb, hs⟩

theorem kind_of_isLiteral {t : Token} (h : t.isLiteral = true) :
    ∃ form, t.kind = .literal form := by
  unfold Token.isLiteral at h
  split at h
  · exact ⟨_, ‹_›⟩
  · cases h

theorem opens_append (as bs : List Token) : opens (as ++ bs) = opens as + opens bs :=
  List.countP_append

theorem closes_append (as bs : List Token) : closes (as ++ bs) = closes as + closes bs :=
  List.countP_append

theorem opens_eq_closes (p : Phrase) : opens p.tokens = closes p.tokens := by
  induction p with
  | literal t ht =>
    obtain ⟨form, hk⟩ := kind_of_isLiteral ht
    simp [tokens, opens, closes, hk]
  | group o p c ho hc ih =>
    simp only [tokens, opens, closes] at ih ⊢
    simp [ho, hc, ih]
  | signed op t p ht ih =>
    obtain ⟨b, hk, -⟩ := kind_of_sign? ht
    simp only [tokens, opens, closes] at ih ⊢
    simp [hk, ih]
  | binary op l t r ht ihl ihr =>
    have hk := kind_of_binaryOp? ht
    simp only [tokens, opens, closes] at ihl ihr ⊢
    simp [hk, ihl, ihr]

/-- Nowhere inside a phrase have more groups been closed than opened. -/
theorem closes_take_le (p : Phrase) (n : Nat) :
    closes (p.tokens.take n) ≤ opens (p.tokens.take n) := by
  induction p generalizing n with
  | literal t ht =>
    obtain ⟨form, hk⟩ := kind_of_isLiteral ht
    cases n <;> simp [tokens, opens, closes, hk]
  | group o p c ho hc ih =>
    cases n with
    | zero => simp [closes]
    | succ n =>
      have hlast : closes ([c].take (n - p.tokens.length)) ≤ 1 :=
        Nat.le_trans List.countP_le_length (List.length_take_le' _ _)
      have hin := ih n
      simp only [tokens, List.take_succ_cons, List.take_append, closes, opens, List.countP_cons,
        List.countP_append, ho, decide_true, reduceCtorEq, decide_false, ite_true] at hin hlast ⊢
      simp only [ite_false]
      omega
  | signed op t p ht ih =>
    obtain ⟨b, hk, -⟩ := kind_of_sign? ht
    cases n with
    | zero => simp [closes]
    | succ n => simpa [tokens, opens, closes, hk] using ih n
  | binary op l t r ht ihl ihr =>
    have hk := kind_of_binaryOp? ht
    simp only [tokens, List.take_append, opens_append, closes_append]
    have hr : closes ((t :: r.tokens).take (n - l.tokens.length)) ≤
        opens ((t :: r.tokens).take (n - l.tokens.length)) := by
      cases n - l.tokens.length with
      | zero => simp [closes]
      | succ m => simpa [opens, closes, hk] using ihr m
    exact Nat.add_le_add (ihl n) hr

/-- The number of tokens that show in a tree: all but those of groups. -/
def marks (ts : List Token) : Nat :=
  ts.countP fun t => t.kind ≠ .openGroup ∧ t.kind ≠ .closeGroup

theorem marks_tokens (p : Phrase) : marks p.tokens = p.tree.size := by
  induction p with
  | literal t ht =>
    obtain ⟨form, hk⟩ := kind_of_isLiteral ht
    simp [tokens, tree, Expr.size, marks, hk]
  | group o p c ho hc ih => simpa [tokens, tree, marks, ho, hc] using ih
  | signed op t p ht ih =>
    obtain ⟨b, hk, -⟩ := kind_of_sign? ht
    simpa [tokens, tree, Expr.size, marks, hk] using ih
  | binary op l t r ht ihl ihr =>
    have hk := kind_of_binaryOp? ht
    simp only [tokens, tree, Expr.size, ← ihl, ← ihr, marks, List.countP_append,
      List.countP_cons, hk]
    simp only [ne_eq, reduceCtorEq, not_false_eq_true, and_self, decide_true, ite_true]
    omega

/-- With as many marks before them, two operators stand at the same place. -/
theorem eq_of_append_cons_eq {l l' r r' : List Token} {t t' : Token} {op op' : BinaryOp}
    (ht : t.binaryOp? = some op) (ht' : t'.binaryOp? = some op')
    (h : l ++ t :: r = l' ++ t' :: r') (hm : marks l = marks l') : l = l' ∧ t = t' ∧ r = r' := by
  have hk := kind_of_binaryOp? ht
  have hk' := kind_of_binaryOp? ht'
  rcases List.append_eq_append_iff.1 h with ⟨as, rfl, has⟩ | ⟨as, rfl, has⟩
  · cases as with
    | nil => simpa using has
    | cons a as =>
      obtain ⟨rfl, -⟩ := List.cons.inj has
      simp [marks, hk] at hm
  · cases as with
    | nil => simpa [eq_comm] using has
    | cons a as =>
      obtain ⟨rfl, -⟩ := List.cons.inj has
      simp [marks, hk'] at hm

/-- An operator outside all groups does not stand inside one group. -/
theorem binary_tokens_ne_group (p l r : Phrase) {t o c : Token} (ho : o.kind = .openGroup) :
    l.tokens ++ t :: r.tokens ≠ o :: (p.tokens ++ [c]) := by
  intro h
  obtain ⟨a, as, hl⟩ := List.exists_cons_of_ne_nil l.tokens_ne_nil
  have hbal := l.opens_eq_closes
  rw [hl, List.cons_append] at h
  obtain ⟨rfl, hrest⟩ := List.cons.inj h
  have has : as = p.tokens.take as.length := by
    have hlen := congrArg List.length hrest
    have hr := List.length_pos_iff.2 r.tokens_ne_nil
    simp only [List.length_append, List.length_cons, List.length_nil] at hlen
    rw [← List.take_append_of_le_length (by omega : as.length ≤ p.tokens.length), ← hrest]
    simp
  have hle := p.closes_take_le as.length
  rw [← has] at hle
  rw [hl] at hbal
  simp [opens, closes, ho] at hbal hle
  omega

/-- A phrase is determined by its tokens and its tree. -/
theorem eq_of_tokens_of_tree {p q : Phrase} (h : p.tokens = q.tokens) (ht : p.tree = q.tree) :
    p = q := by
  induction p generalizing q with
  | literal t hl =>
    cases q with
    | literal u hu => simp_all [tokens]
    | group o q c ho hc => simp [tokens] at h
    | signed op u q hs => cases ht
    | binary op l u r hb => cases ht
  | group o p c ho hc ih =>
    cases q with
    | literal u hu => simp [tokens] at h
    | group o' q c' ho' hc' =>
      obtain ⟨rfl, hrest⟩ := List.cons.inj h
      obtain ⟨hp, hcc⟩ := List.append_inj' hrest rfl
      cases hcc
      cases ih hp ht
      rfl
    | signed op u q hs =>
      obtain ⟨rfl, -⟩ := List.cons.inj h
      obtain ⟨b, hk, -⟩ := kind_of_sign? hs
      simp [ho] at hk
    | binary op l u r hb => exact absurd h.symm (binary_tokens_ne_group p l r ho)
  | signed op t p hs ih =>
    cases q with
    | literal u hu => cases ht
    | group o q c ho hc =>
      obtain ⟨rfl, -⟩ := List.cons.inj h
      obtain ⟨b, hk, -⟩ := kind_of_sign? hs
      simp [ho] at hk
    | signed op' u q hs' =>
      obtain ⟨rfl, hp⟩ := List.cons.inj h
      obtain ⟨rfl, ht, -⟩ := Expr.signed.inj ht
      cases ih hp ht
      rfl
    | binary op' l u r hb => cases ht
  | binary op l t r hb ihl ihr =>
    cases q with
    | literal u hu => cases ht
    | group o q c ho hc => exact absurd h (binary_tokens_ne_group q l r ho)
    | signed op' u q hs => cases ht
    | binary op' l' t' r' hb' =>
      obtain ⟨rfl, hlt, hrt, -⟩ := Expr.binary.inj ht
      have hm : marks l.tokens = marks l'.tokens := by rw [marks_tokens, marks_tokens, hlt]
      obtain ⟨hl, rfl, hr⟩ := eq_of_append_cons_eq hb hb' h hm
      cases ihl hl hlt
      cases ihr hr hrt
      rfl

end Phrase

end ClockCalc
