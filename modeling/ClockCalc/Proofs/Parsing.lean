import ClockCalc.Proofs.Grammar

/-! The reader of trees accepts exactly the phrases of the grammar that nest within the limit,
and answers their trees. One direction follows a phrase through the reader, whatever is open
before it and whatever comes after it. The other keeps, beside the open frames, the tokens that
have gone into them. -/

namespace ClockCalc

open Reducer (depth maxNesting)

namespace Rank

/-- The place in the order of the ranks. -/
def place : Rank → Nat
  | sum => 0
  | product => 1
  | unary => 2
  | power => 3
  | primary => 4

/-- A phrase of the rank is whole before a token that completes the frames of this grip. -/
def grip : Rank → Nat
  | sum => 1
  | product => 2
  | unary | power => 3
  | primary => 4

/-- Frames of this grip would take the first operand of a phrase of the rank for theirs. -/
def opensUnder : Rank → Nat
  | sum => 1
  | product => 2
  | unary | power | primary => 4

end Rank

theorem Phrase.HasRank.loosen {p : Phrase} {r r' : Rank} (h : p.HasRank r)
    (hr : r'.place ≤ r.place) : p.HasRank r' := by
  have h4 : p.HasRank .primary → p.HasRank .power := .powerOfPrimary
  have h3 : p.HasRank .power → p.HasRank .unary := .unaryOfPower
  have h2 : p.HasRank .unary → p.HasRank .product := .productOfUnary
  have h1 : p.HasRank .product → p.HasRank .sum := .sumOfProduct
  cases r <;> cases r' <;> simp only [Rank.place] at hr <;> grind

namespace BinaryOp

def rank : BinaryOp → Rank
  | add | sub => .sum
  | mul | div => .product
  | pow => .power

def leftRank : BinaryOp → Rank
  | add | sub => .sum
  | mul | div => .product
  | pow => .primary

def rightRank : BinaryOp → Rank
  | add | sub => .product
  | mul | div | pow => .unary

end BinaryOp

/-- The rank of the operand that a frame waits for. -/
def Frame.operandRank {α : Type} : Frame α → Rank
  | sign .. => .unary
  | group => .sum
  | binary _ op _ => op.rightRank

theorem Frame.grip_lt_four {α : Type} (frame : Frame α) : frame.grip < 4 := by
  cases frame with
  | sign op position => exact Nat.lt_succ_self 3
  | group => exact Nat.succ_pos 3
  | binary left op position =>
    change op.grip < 4
    cases op <;> decide

theorem Frame.operandRank_le_unary {α : Type} (frame : Frame α) :
    frame.operandRank.place ≤ Rank.unary.place := by
  cases frame with
  | sign op position => exact Nat.le_refl _
  | group => exact Nat.zero_le _
  | binary left op position =>
    change op.rightRank.place ≤ _
    cases op <;> decide

/-- What an operator makes can be taken by every frame that the operator does not complete. -/
theorem Frame.operandRank_le_rank {α : Type} {frame : Frame α} {op : BinaryOp}
    (h : frame.grip < op.completes) : frame.operandRank.place ≤ op.rank.place := by
  cases frame with
  | sign sign position =>
    change 3 < op.completes at h
    change Rank.unary.place ≤ _
    cases op <;> revert h <;> decide
  | group => exact Nat.zero_le _
  | binary left inner position =>
    change inner.grip < op.completes at h
    change inner.rightRank.place ≤ _
    cases op <;> cases inner <;> revert h <;> decide

theorem BinaryOp.completes_pos (op : BinaryOp) : 1 ≤ op.completes := by
  cases op <;> decide

theorem BinaryOp.leftRank_le_rank {op next : BinaryOp} (h : next.completes ≤ op.grip) :
    next.leftRank.place ≤ op.rank.place := by
  cases op <;> cases next <;> revert h <;> decide

theorem BinaryOp.leftRank_le_unary {next : BinaryOp} (h : next.completes ≤ 3) :
    next.leftRank.place ≤ Rank.unary.place := by
  cases next <;> revert h <;> decide

theorem Phrase.HasRank.binary {op : BinaryOp} {l r : Phrase} {t : Token}
    (ht : t.binaryOp? = some op) (hl : l.HasRank op.leftRank) (hr : r.HasRank op.rightRank) :
    (Phrase.binary op l t r ht).HasRank op.rank := by
  cases op with
  | add => exact .sum (.inl rfl) hl hr
  | sub => exact .sum (.inr rfl) hl hr
  | mul => exact .product (.inl rfl) hl hr
  | div => exact .product (.inr rfl) hl hr
  | pow => exact .power hl hr

theorem depth_cons {α : Type} (frame : Frame α) (stack : List (Frame α)) :
    depth (frame :: stack) = depth stack + if frame.nests = true then 1 else 0 :=
  List.countP_cons

theorem depth_eq_zero {α : Type} {stack : List (Frame α)}
    (h : ∀ frame ∈ stack, frame.nests = false) : depth stack = 0 :=
  List.countP_eq_zero.2 fun f hf => by simp [h f hf]

/-- The least grip of the frames that the next token completes. -/
def follow : List Token → Nat
  | [] => 1
  | t :: _ => (t.binaryOp?.map BinaryOp.completes).getD 1

namespace Expr

theorem settle_reducer (least : Nat) (stack : List (Frame Expr)) (e : Expr) :
    reducer.settle least stack e = .ok (settle least stack e) := by
  induction stack generalizing e with
  | nil => rfl
  | cons frame stack ih =>
    have hclose : reducer.close e frame = .ok (e.close frame) := by cases frame <;> rfl
    unfold Reducer.settle settle
    split
    · rfl
    · rw [hclose, ok_bind, ih]

theorem settle_of_grip {least : Nat} {stack : List (Frame Expr)}
    (h : ∀ frame ∈ stack.head?, frame.grip < least) (e : Expr) :
    settle least stack e = (stack, e) := by
  cases stack with
  | nil => rfl
  | cons frame stack => simp [settle, h frame (by simp)]

/-- The next token completes the frame on top. -/
theorem readFrom_close {frame : Frame Expr} {ts : List Token} (h : follow ts ≤ frame.grip)
    (base : Nat) (stack : List (Frame Expr)) (e : Expr) :
    reducer.readFrom base (frame :: stack) (some e) ts =
      reducer.readFrom base stack (some (e.close frame)) ts := by
  have hs : ∀ least, least = follow ts →
      settle least (frame :: stack) e = settle least stack (e.close frame) := by
    intro least hl
    simp [settle, hl, Nat.not_lt.2 h]
  cases ts with
  | nil => simp only [Reducer.readFrom, settle_reducer, hs 1 rfl]
  | cons t ts =>
    cases ho : t.binaryOp? with
    | none => simp only [Reducer.readFrom, settle_reducer, ho, hs 1 (by simp [follow, ho])]
    | some op =>
      simp only [Reducer.readFrom, settle_reducer, ho, hs op.completes (by simp [follow, ho])]

/-- The next token is an operator that takes the operand from the frame on top. -/
theorem readFrom_operator {stack : List (Frame Expr)} {t : Token} {op : BinaryOp}
    (ht : t.binaryOp? = some op) (h : ∀ frame ∈ stack.head?, frame.grip < op.completes)
    (base : Nat) (e : Expr) (ts : List Token) :
    reducer.readFrom base stack (some e) (t :: ts) =
      reducer.readFrom base (.binary e op t.position :: stack) none ts := by
  simp [Reducer.readFrom, ht, settle_reducer, settle_of_grip h]

/-- Wherever a phrase of the rank may stand, the phrase is read to its end. -/
def ReadsWhole (p : Phrase) (rank : Rank) : Prop :=
  ∀ ⦃base : Nat⦄ ⦃stack : List (Frame Expr)⦄ ⦃rest : List Token⦄,
    base + depth stack + p.nesting ≤ maxNesting →
    (∀ frame ∈ stack.head?, frame.grip < rank.opensUnder) → follow rest ≤ rank.grip →
    reducer.readFrom base stack none (p.tokens ++ rest) =
      reducer.readFrom base stack (some p.tree) rest

theorem ReadsWhole.binary {op : BinaryOp} {l r : Phrase} {t : Token} (ht : t.binaryOp? = some op)
    (hl : ReadsWhole l op.leftRank) (hr : ReadsWhole r op.rightRank) :
    ReadsWhole (.binary op l t r ht) op.rank := by
  intro base stack rest hn htop hrest
  have hleft : op.leftRank.opensUnder = op.completes ∧ op.rank.opensUnder = op.completes ∧
      op.completes ≤ op.leftRank.grip := by cases op <;> decide
  have hright : op.grip < op.rightRank.opensUnder ∧ op.rank.grip = op.grip ∧
      op.grip ≤ op.rightRank.grip := by cases op <;> decide
  simp only [Phrase.nesting] at hn
  rw [hleft.2.1] at htop
  rw [hright.2.1] at hrest
  have hln : base + depth stack + l.nesting ≤ maxNesting := by omega
  have hrn : base + depth (.binary l.tree op t.position :: stack) + r.nesting ≤ maxNesting := by
    simp only [depth_cons, Frame.nests, decide_eq_true_eq]
    omega
  simp only [Phrase.tokens, List.append_assoc, List.cons_append]
  rw [hl hln (by rwa [hleft.1]) (by simp [follow, ht, hleft.2.2]), readFrom_operator ht htop,
    hr hrn (by simp [Frame.grip, hright.1]) (Nat.le_trans hrest hright.2.2), readFrom_close hrest]
  rfl

theorem ReadsWhole.signed {op : UnaryOp} {p : Phrase} {t : Token} (ht : t.sign? = some op)
    (hp : ReadsWhole p .unary) : ReadsWhole (.signed op t p ht) .unary := by
  intro base stack rest hn htop hrest
  obtain ⟨b, hk, hb⟩ := Phrase.kind_of_sign? ht
  have hd : ¬ maxNesting < base + depth stack := by omega
  have hpn : base + depth (.sign op t.position :: stack) + p.nesting ≤ maxNesting := by
    simp only [Phrase.nesting, depth_cons, Frame.nests, ite_true] at hn ⊢
    omega
  have hread := hp hpn (by simp [Frame.grip, Rank.opensUnder]) hrest
  rw [readFrom_close hrest] at hread
  simpa [Phrase.tokens, Phrase.tree, close, Reducer.readFrom, hd, hk, hb] using hread

theorem ReadsWhole.group {p : Phrase} {o c : Token} (ho : o.kind = .openGroup)
    (hc : c.kind = .closeGroup) (hp : ReadsWhole p .sum) :
    ReadsWhole (.group o p c ho hc) .primary := by
  intro base stack rest hn htop hrest
  have hd : ¬ maxNesting < base + depth stack := by omega
  have hb : c.binaryOp? = none := by simp [Token.binaryOp?, hc]
  have hpn : base + depth (.group :: stack) + p.nesting ≤ maxNesting := by
    simp only [Phrase.nesting, depth_cons, Frame.nests, ite_true] at hn ⊢
    omega
  have hread := hp hpn (by simp [Frame.grip, Rank.opensUnder])
    (by simp [follow, hb, Rank.grip] : follow (c :: rest) ≤ Rank.sum.grip)
  simpa [Phrase.tokens, Reducer.readFrom, hd, ho, hc, hb, settle_reducer, settle, Frame.grip,
    Phrase.tree] using hread

/-- By induction on the derivation. A rule that only passes to the next tighter rank asks no
more of what stands before and after the phrase. -/
theorem readsWhole {p : Phrase} {rank : Rank} (h : p.HasRank rank) : ReadsWhole p rank := by
  induction h with
  | sumOfProduct h ih =>
    intro base stack rest hn htop hrest
    exact ih hn (fun f hf => Nat.lt_succ_of_lt (htop f hf)) (Nat.le_succ_of_le hrest)
  | sum hop hl hr ihl ihr => rcases hop with rfl | rfl <;> exact ReadsWhole.binary _ ihl ihr
  | productOfUnary h ih =>
    intro base stack rest hn htop hrest
    exact ih hn (fun f hf => Nat.lt_of_lt_of_le (htop f hf) (by decide)) (Nat.le_succ_of_le hrest)
  | product hop hl hr ihl ihr => rcases hop with rfl | rfl <;> exact ReadsWhole.binary _ ihl ihr
  | unaryOfPower h ih => exact ih
  | @unary op t p ht h ih => exact ih.signed ht
  | powerOfPrimary h ih =>
    intro base stack rest hn htop hrest
    exact ih hn htop (Nat.le_succ_of_le hrest)
  | power hl hr ihl ihr => exact ReadsWhole.binary _ ihl ihr
  | @literal t ht =>
    intro base stack rest hn htop hrest
    obtain ⟨form, hk⟩ := Phrase.kind_of_isLiteral ht
    have hd : ¬ maxNesting < base + depth stack := by omega
    simp [Phrase.tokens, Reducer.readFrom, hd, hk, reducer, Phrase.tree]
  | @group o p c ho hc h ih => exact ih.group ho hc

/-- The reader accepts every phrase within the nesting limit. -/
theorem read_of_derives {p : Phrase} {ts : List Token} {e : Expr} (h : p.Derives ts e) :
    reducer.read ts = .ok e := by
  obtain ⟨hp, hn, rfl, rfl⟩ := h
  have hread : reducer.readFrom 0 [] none (p.tokens ++ []) =
      reducer.readFrom 0 [] (some p.tree) [] :=
    readsWhole hp (by simpa [depth] using hn) (by simp) (by simp [follow, Rank.grip])
  rw [List.append_nil] at hread
  simp [Reducer.read, Reducer.readPart, hread, Reducer.readFrom, settle_reducer, settle]

/-- The tokens that have gone into the open frames. The operand that a frame already holds is a
phrase that the operator after it could close, and so is nothing under it that would hold that
operand more tightly. -/
inductive Opened (base : Nat) : List (Frame Expr) → List Token → Prop
  | nil : Opened base [] []
  | sign {stack before op t} : Opened base stack before → t.sign? = some op →
      Opened base (.sign op t.position :: stack) (before ++ [t])
  | group {stack before t} : Opened base stack before → t.kind = .openGroup →
      Opened base (.group :: stack) (before ++ [t])
  | binary {stack before op t} {p : Phrase} : Opened base stack before →
      p.HasRank op.leftRank → base + depth stack + p.nesting ≤ maxNesting →
      (∀ frame ∈ stack.head?, frame.grip < op.completes) → t.binaryOp? = some op →
      Opened base (.binary p.tree op t.position :: stack) (before ++ p.tokens ++ [t])

/-- A phrase in hand that the frame on top can take. -/
structure InHand (base : Nat) (stack : List (Frame Expr)) (p : Phrase) : Prop where
  fits : ∀ frame ∈ stack.head?, p.HasRank frame.operandRank
  shallow : base + depth stack + p.nesting ≤ maxNesting

theorem InHand.of_primary {base : Nat} {stack : List (Frame Expr)} {p : Phrase}
    (hp : p.HasRank .primary) (hn : base + depth stack + p.nesting ≤ maxNesting) :
    InHand base stack p :=
  ⟨fun f _ => hp.loosen (Nat.le_trans f.operandRank_le_unary (by decide)), hn⟩

/-- Closing the top frame makes one phrase of what it holds and the phrase in hand. -/
theorem Opened.close {base : Nat} {frame : Frame Expr} {stack : List (Frame Expr)}
    {before : List Token} {p : Phrase} (h : Opened base (frame :: stack) before)
    (hp : InHand base (frame :: stack) p) (hg : 1 ≤ frame.grip) :
    ∃ (q : Phrase) (earlier : List Token), q.tree = p.tree.close frame ∧
      Opened base stack earlier ∧ before ++ p.tokens = earlier ++ q.tokens ∧
      InHand base stack q ∧ ∀ op : BinaryOp, op.completes ≤ frame.grip → q.HasRank op.leftRank := by
  obtain ⟨hfit, hdeep⟩ := hp
  have hfit := hfit frame (by simp)
  cases h with
  | @sign _ earlier op t hstack ht =>
    have hq : (Phrase.signed op t p ht).HasRank .unary := .unary hfit
    refine ⟨.signed op t p ht, earlier, rfl, hstack, by simp [Phrase.tokens], ⟨?_, ?_⟩, ?_⟩
    · exact fun f _ => hq.loosen f.operandRank_le_unary
    · simp only [depth_cons, Frame.nests, ite_true, Phrase.nesting] at hdeep ⊢
      omega
    · exact fun next hnext => hq.loosen (BinaryOp.leftRank_le_unary hnext)
  | group hstack ht => simp [Frame.grip] at hg
  | @binary _ earlier op t l hstack hl hln htop ht =>
    have hq := Phrase.HasRank.binary ht hl hfit
    refine ⟨.binary op l t p ht, earlier, rfl, hstack, by simp [Phrase.tokens], ⟨?_, ?_⟩, ?_⟩
    · exact fun f hf => hq.loosen (Frame.operandRank_le_rank (htop f hf))
    · simp only [depth_cons, Frame.nests, Phrase.nesting, decide_eq_true_eq] at hdeep ⊢
      omega
    · exact fun next hnext => hq.loosen (BinaryOp.leftRank_le_rank hnext)

/-- Settling before an operator leaves its left operand in hand. -/
theorem Opened.settle {base : Nat} {stack : List (Frame Expr)} {before : List Token} {p : Phrase}
    {next : BinaryOp} (h : Opened base stack before) (hp : InHand base stack p)
    (hr : p.HasRank next.leftRank) :
    ∃ (stack' : List (Frame Expr)) (q : Phrase) (earlier : List Token),
      Expr.settle next.completes stack p.tree = (stack', q.tree) ∧ Opened base stack' earlier ∧
      before ++ p.tokens = earlier ++ q.tokens ∧ InHand base stack' q ∧
      q.HasRank next.leftRank ∧ ∀ frame ∈ stack'.head?, frame.grip < next.completes := by
  induction stack generalizing before p with
  | nil => exact ⟨[], p, before, rfl, h, rfl, hp, hr, by simp⟩
  | cons frame stack ih =>
    by_cases hg : frame.grip < next.completes
    · exact ⟨frame :: stack, p, before, by simp [Expr.settle, hg], h, rfl, hp, hr,
        by simpa using hg⟩
    · have hle := Nat.le_of_not_lt hg
      have hone : 1 ≤ next.completes := by cases next <;> decide
      obtain ⟨q, earlier, hq, hstack, htokens, hin, hrank⟩ :=
        h.close hp (Nat.le_trans hone hle)
      obtain ⟨stack', q', earlier', hset, hstack', htokens', hin', hrank', htop⟩ :=
        ih hstack hin (hrank next hle)
      refine ⟨stack', q', earlier', ?_, hstack', htokens.trans htokens', hin', hrank', htop⟩
      rw [← hset, hq]
      simp [Expr.settle, hg]

/-- What a reader of trees stands on: the open frames, and a primary phrase if one has just been
read. -/
inductive Standing (base : Nat) : List (Frame Expr) → Option Expr → List Token → Prop
  | between {stack before} : Opened base stack before → Standing base stack none before
  | after {stack before} {p : Phrase} : Opened base stack before → p.HasRank .primary →
      base + depth stack + p.nesting ≤ maxNesting →
      Standing base stack (some p.tree) (before ++ p.tokens)

/-- At the end of a sum what is in hand is complete up to the nearest open group. -/
theorem Opened.settle_sum {base : Nat} {stack stack' : List (Frame Expr)} {before : List Token}
    {p : Phrase} {e : Expr} (h : Opened base stack before) (hp : p.HasRank .primary)
    (hn : base + depth stack + p.nesting ≤ maxNesting)
    (hs : Expr.settle 1 stack p.tree = (stack', e)) :
    ∃ (q : Phrase) (earlier : List Token), q.tree = e ∧ Opened base stack' earlier ∧
      before ++ p.tokens = earlier ++ q.tokens ∧ q.HasRank .sum ∧
      base + depth stack' + q.nesting ≤ maxNesting := by
  have hsum : p.HasRank BinaryOp.add.leftRank := hp.loosen (by decide)
  obtain ⟨frames, q, earlier, hset, hframes, htokens, hin, hrank, -⟩ :=
    h.settle (.of_primary hp hn) hsum
  simp only [BinaryOp.completes] at hset
  rw [hs] at hset
  cases hset
  exact ⟨q, earlier, rfl, hframes, htokens, hrank, hin.shallow⟩

/-- A token that is taken keeps the account of those before it. -/
theorem Standing.takes {base : Nat} {stack stack' : List (Frame Expr)}
    {operand operand' : Option Expr} {before : List Token} {t : Token}
    (h : Standing base stack operand before)
    (ht : Reducer.Takes base stack operand t stack' operand') :
    Standing base stack' operand' (before ++ [t]) := by
  cases ht with
  | literal hd hl =>
    cases h with
    | between hstack =>
      have hn : base + depth stack + (Phrase.literal t hl).nesting ≤ maxNesting := by
        simpa [Phrase.nesting] using hd
      exact .after hstack .literal hn
  | group hd hk =>
    cases h with
    | between hstack => exact .between (.group hstack hk)
  | sign hd hk ho =>
    cases h with
    | between hstack =>
      exact .between (.sign hstack (by simp [Token.sign?, Token.binaryOp?, hk, ho]))
  | @operator _ _ _ _ op ho hs =>
    cases h with
    | @after _ p hstack hp hn =>
      have hl : p.HasRank op.leftRank := hp.loosen (by cases op <;> decide)
      obtain ⟨stack', q, earlier, hset, hstack', htokens, hin, hrank, htop⟩ :=
        hstack.settle (.of_primary hp hn) hl
      rw [hs] at hset
      cases hset
      rw [htokens]
      exact .between (.binary hstack' hrank hin.shallow htop ho)
  | close hc hs =>
    cases h with
    | after hstack hp hn =>
      obtain ⟨q, earlier, rfl, hgroup, htokens, hrank, hshallow⟩ := hstack.settle_sum hp hn hs
      rw [htokens]
      cases hgroup with
      | @group _ outside o hbelow hopen =>
        have hn' : base + depth stack' + (Phrase.group o q t hopen hc).nesting ≤ maxNesting := by
          simp only [depth_cons, Frame.nests, ite_true, Phrase.nesting] at hshallow ⊢
          omega
        have hafter := Standing.after hbelow (.group hrank) hn'
        simpa [Phrase.tokens, Phrase.tree] using hafter

/-- Where a fault is met: at the next token, or at the end. -/
inductive MetAt : GrammarFault → List Token → Prop
  | unexpected {t ts} : MetAt (.unexpected t.lexeme t.position) (t :: ts)
  | tooDeep {t ts} : MetAt (.tooDeep t.position) (t :: ts)
  | endOfInput : MetAt .endOfInput []

/-- What a reading says of the tokens. The phrase that is read is the whole of them up to the rest.
Before a fault they are in the open frames, or in these and in a sum that is complete up to the
nearest open group. -/
inductive Accounts (base : Nat) : List Token → Reading → Prop
  | whole {p : Phrase} {rest} : p.HasRank .sum → base + p.nesting ≤ maxNesting →
      Accounts base (p.tokens ++ rest) (.whole p.tree rest)
  | operandDue {stack before rest fault} : Opened base stack before → MetAt fault rest →
      Accounts base (before ++ rest) (.stopped (Frame.held stack) fault)
  | afterSum {stack before rest fault} {p : Phrase} : Opened base stack before →
      (∀ frame ∈ stack.head?, frame = .group) → p.HasRank .sum →
      base + depth stack + p.nesting ≤ maxNesting → MetAt fault rest →
      Accounts base (before ++ p.tokens ++ rest) (.stopped (Frame.held stack ++ [p.tree]) fault)

theorem Standing.stops {base : Nat} {stack : List (Frame Expr)} {operand : Option Expr}
    {before ts : List Token} {held : List Expr} {fault : GrammarFault}
    (h : Standing base stack operand before)
    (hs : Reducer.Stops base stack operand ts held fault) :
    Accounts base (before ++ ts) (.stopped held fault) := by
  cases hs with
  | tooDeep hd =>
    cases h with
    | between hstack => exact .operandDue hstack .tooDeep
  | noOperand hd hl hg ho =>
    cases h with
    | between hstack => exact .operandDue hstack .unexpected
  | missing =>
    cases h with
    | between hstack => exact .operandDue hstack .endOfInput
  | inGroup hs ho hc =>
    cases h with
    | after hstack hp hn =>
      obtain ⟨q, earlier, rfl, hgroup, htokens, hrank, hshallow⟩ := hstack.settle_sum hp hn hs
      rw [htokens]
      exact .afterSum hgroup (by simp) hrank hshallow .unexpected
  | unclosed hs =>
    cases h with
    | after hstack hp hn =>
      obtain ⟨q, earlier, rfl, hgroup, htokens, hrank, hshallow⟩ := hstack.settle_sum hp hn hs
      rw [htokens]
      exact .afterSum hgroup (by simp) hrank hshallow .endOfInput

/-- By induction on the reading: every token keeps the account of those before it. -/
theorem Standing.accounts {base : Nat} {stack : List (Frame Expr)} {operand : Option Expr}
    {before ts : List Token} {r : Reading} (h : Standing base stack operand before)
    (hr : Reducer.Reads base stack operand ts r) : Accounts base (before ++ ts) r := by
  induction hr generalizing before with
  | takes ht _ ih =>
    rw [List.append_cons]
    exact ih (h.takes ht)
  | ends hs ho =>
    cases h with
    | after hstack hp hn =>
      obtain ⟨q, earlier, rfl, hempty, htokens, hrank, hshallow⟩ := hstack.settle_sum hp hn hs
      rw [htokens]
      cases hempty with
      | nil => exact .whole hrank (by simpa [depth] using hshallow)
  | stops hs => exact h.stops hs

theorem exists_derivation {ts : List Token} {e : Expr} (h : reducer.read ts = .ok e) :
    ∃ p : Phrase, p.Derives ts e := by
  obtain ⟨r, hr⟩ := Reducer.exists_reads 0 [] none ts
  have haccounts : Accounts 0 ([] ++ ts) r := Standing.accounts (.between .nil) hr
  obtain ⟨⟨e', rest⟩, hpart, hrest⟩ := bind_eq_ok_iff.1 h
  rw [reducer.readPart_of_reads hr] at hpart
  generalize hts : [] ++ ts = all at haccounts
  cases haccounts with
  | @whole p rest' hp hn =>
    simp only [Reducer.finish, fold_reducer] at hpart
    cases hpart
    cases rest with
    | cons t rest => cases hrest
    | nil =>
      cases hrest
      exact ⟨p, hp, by simpa using hn, by simpa using hts.symm, rfl⟩
  | operandDue => simp [Reducer.finish] at hpart
  | afterSum => simp [Reducer.finish] at hpart

theorem settle_suffix (least : Nat) (stack : List (Frame Expr)) (e : Expr) :
    (settle least stack e).1 <:+ stack := by
  induction stack generalizing e with
  | nil => exact List.suffix_refl _
  | cons frame stack ih =>
    unfold settle
    split
    · exact List.suffix_refl _
    · exact (ih _).trans (List.suffix_cons frame stack)

theorem settle_all {least : Nat} {stack : List (Frame Expr)}
    (h : ∀ frame ∈ stack, least ≤ frame.grip) (e : Expr) :
    ∃ e', settle least stack e = ([], e') := by
  induction stack generalizing e with
  | nil => exact ⟨e, rfl⟩
  | cons frame stack ih =>
    obtain ⟨e', he'⟩ := ih (fun f hf => h f (by simp [hf])) (e.close frame)
    exact ⟨e', by simp [settle, Nat.not_lt.2 (h frame (by simp)), he']⟩

/-- An operator and its right operand, between operands that are no powers of each other. -/
structure Link where
  operator : Token
  operand : Phrase
  op : BinaryOp
  isOp : operator.binaryOp? = some op
  flat : op ≠ .pow
  rank : operand.HasRank .unary
  shallow : operand.nesting ≤ maxNesting

def Link.tokens (link : Link) : List Token := link.operator :: link.operand.tokens

theorem Link.follow_le (links : List Link) : follow (links.flatMap Link.tokens) ≤ 3 := by
  cases links with
  | nil => decide
  | cons link links =>
    have hc : link.op.completes ≤ 3 := by
      have := link.flat
      cases h : link.op <;> simp_all [BinaryOp.completes]
    simpa [follow, Link.tokens, link.isOp] using hc

/-- Sums and products pile up no frames that nest, so chains of them may have any length. -/
theorem readFrom_chain {stack : List (Frame Expr)} {first : Phrase} (links : List Link)
    (hflat : ∀ frame ∈ stack, 1 ≤ frame.grip ∧ frame.nests = false) (hr : first.HasRank .unary)
    (hn : first.nesting ≤ maxNesting) :
    ∃ e, reducer.readFrom 0 stack none (first.tokens ++ links.flatMap Link.tokens) =
      .ok (e, []) := by
  induction links generalizing stack first with
  | nil =>
    have hdepth : depth stack = 0 := depth_eq_zero fun f hf => (hflat f hf).2
    obtain ⟨e, he⟩ := settle_all (fun f hf => (hflat f hf).1) first.tree
    refine ⟨e, ?_⟩
    rw [List.flatMap_nil, readsWhole hr (by omega) (fun f _ => f.grip_lt_four) (by decide)]
    simp [Reducer.readFrom, settle_reducer, he]
  | cons link links ih =>
    have hdepth : depth stack = 0 := depth_eq_zero fun f hf => (hflat f hf).2
    have hfollow := Link.follow_le (link :: links)
    rw [readsWhole hr (by omega) (fun f _ => f.grip_lt_four) hfollow, List.flatMap_cons,
      Link.tokens, List.cons_append]
    simp only [Reducer.readFrom, link.isOp, settle_reducer, ok_bind]
    refine ih ?_ link.rank link.shallow
    intro frame hf
    rcases List.mem_cons.1 hf with rfl | hf
    · refine ⟨?_, by simp [Frame.nests, link.flat]⟩
      change 1 ≤ link.op.grip
      cases link.op <;> decide
    · exact hflat frame ((settle_suffix _ _ _).subset hf)

/-- A token list has a tree exactly if a phrase of the grammar, within the nesting limit, derives
it, and then there is one such phrase. Nothing limits the length of sums and products. -/
theorem read_eq_ok_iff_derives :
    (∀ ts e, reducer.read ts = .ok e ↔ ∃ p : Phrase, p.Derives ts e) ∧
    (∀ ts e e', ∀ p q : Phrase, p.Derives ts e → q.Derives ts e' → p = q) ∧
    (∀ (first : Phrase) (links : List Link), first.HasRank .unary → first.nesting ≤ maxNesting →
      ∃ e, reducer.read (first.tokens ++ links.flatMap Link.tokens) = .ok e) := by
  refine ⟨fun ts e => ⟨exists_derivation, ?_⟩, ?_, ?_⟩
  · rintro ⟨p, hp⟩
    exact read_of_derives hp
  · intro ts e e' p q hp hq
    have htree : (.ok e : Except Error Expr) = .ok e' := by
      rw [← read_of_derives hp, read_of_derives hq]
    rw [← hp.tree, ← hq.tree, Except.ok.injEq] at htree
    exact Phrase.eq_of_tokens_of_tree (hp.tokens.trans hq.tokens.symm) htree
  · intro first links hr hn
    have hflat : ∀ frame ∈ ([] : List (Frame Expr)), 1 ≤ frame.grip ∧ frame.nests = false := by
      simp
    obtain ⟨e, he⟩ := readFrom_chain links hflat hr hn
    exact ⟨e, by simp [Reducer.read, Reducer.readPart, he]⟩

end Expr

end ClockCalc
