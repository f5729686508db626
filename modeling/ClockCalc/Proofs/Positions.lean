import ClockCalc.Proofs.Kinds
import ClockCalc.Proofs.Reductions
import ClockCalc.Proofs.Scanning

/-! Errors point into the text. Every position in an error is that of the character that could not
be read, or of the token at which the error arose: it comes from the token through the tree to the
operation that fails, and the scanner has it from the text. -/

namespace ClockCalc

/-- A token of the text, standing where its position says. -/
def Token.In (text : String) (t : Token) : Prop :=
  (∃ ts, ofText text = .ok ts ∧ t ∈ ts) ∧ At text t.position t.lexeme

/-- A token of the text that is the symbol of this operator. -/
structure Token.Writes (text : String) (op : BinaryOp) (t : Token) : Prop where
  isIn : t.In text
  kind : t.kind = .operator op
  lexeme : t.lexeme = op.symbol

/-- What must be true of an error about a text. There is no case for an error that no text leads
to. -/
inductive Error.Points (text : String) : Error → Prop
  | unreadable {stop : Unreadable} : Token.At text stop.position (String.singleton stop.fragment) →
      Points text (.unreadable stop)
  | unexpected {t : Token} : t.In text → Points text (.grammar (.unexpected t.lexeme t.position))
  | endOfInput : Points text (.grammar .endOfInput)
  | tooDeep {t : Token} : t.In text → Points text (.grammar (.tooDeep t.position))
  | tooLarge {t : Token} : t.In text → t.isLiteral = true →
      Points text (.grammar (.tooLarge t.lexeme t.position))
  | incompatible {t : Token} {op : BinaryOp} {left right} : t.Writes text op →
      Points text (.grammar (.incompatible op left right t.position))
  | arithmetic {t : Token} {op : BinaryOp} {cause} : t.Writes text op →
      (cause = .divisionByZero → op = .div) →
      Points text (.run (.arithmetic cause (some t.position)))
  | wrongKind {wanted found} : Points text (.wrongKind wanted found)

/-- The operation of a subtree is the work of one of the tokens. -/
def Expr.RootedIn (ts : List Token) : Expr → Prop
  | .literal t => t ∈ ts ∧ t.isLiteral = true
  | .signed op _ position => ∃ t ∈ ts, t.sign? = some op ∧ t.position = position
  | .binary op _ _ position => ∃ t ∈ ts, t.binaryOp? = some op ∧ t.position = position

theorem Expr.RootedIn.mono {ts us : List Token} {e : Expr} (h : e.RootedIn ts) (hsub : ts ⊆ us) :
    e.RootedIn us := by
  cases e with
  | literal t => exact ⟨hsub h.1, h.2⟩
  | signed op e position =>
    obtain ⟨t, ht, hs⟩ := h
    exact ⟨t, hsub ht, hs⟩
  | binary op left right position =>
    obtain ⟨t, ht, hs⟩ := h
    exact ⟨t, hsub ht, hs⟩

theorem Phrase.rootedIn_of_mem_reductions (p : Phrase) :
    ∀ e ∈ p.tree.reductions, e.RootedIn p.tokens := by
  induction p with
  | literal t ht => simp [tree, tokens, Expr.reductions, Expr.RootedIn, ht]
  | group o p c ho hc ih =>
    intro e he
    exact (ih e he).mono fun t ht => List.mem_cons_of_mem _ (List.mem_append_left _ ht)
  | signed op t p ht ih =>
    intro e he
    rcases List.mem_append.1 he with he | he
    · exact (ih e he).mono fun u hu => List.mem_cons_of_mem _ hu
    · obtain rfl := List.mem_singleton.1 he
      exact ⟨t, by simp [tokens], ht, rfl⟩
  | binary op l t r ht ihl ihr =>
    intro e he
    simp only [tree, Expr.reductions, List.mem_append, List.mem_singleton] at he
    rcases he with (he | he) | rfl
    · exact (ihl e he).mono fun u hu => List.mem_append_left _ hu
    · exact (ihr e he).mono fun u hu => List.mem_append_right _ (List.mem_cons_of_mem _ hu)
    · exact ⟨t, by simp [tokens], ht, rfl⟩

namespace Expr

/-- Every operand that an open frame holds has been read from the tokens so far. -/
theorem Opened.exists_phrase {base : Nat} {stack : List (Frame Expr)} {before : List Token}
    (h : Opened base stack before) :
    ∀ e ∈ Frame.held stack, ∃ p : Phrase, p.tree = e ∧ p.tokens ⊆ before := by
  induction h with
  | nil => simp [Frame.held]
  | sign h ht ih =>
    intro e he
    obtain ⟨p, rfl, hp⟩ := ih e he
    exact ⟨p, rfl, fun t ht => List.mem_append_left _ (hp ht)⟩
  | group h ht ih =>
    intro e he
    obtain ⟨p, rfl, hp⟩ := ih e he
    exact ⟨p, rfl, fun t ht => List.mem_append_left _ (hp ht)⟩
  | @binary stack before op t p h hl hn htop ht ih =>
    intro e he
    rcases List.mem_append.1 he with he | he
    · obtain ⟨q, rfl, hq⟩ := ih e he
      exact ⟨q, rfl, fun u hu => List.mem_append_left _ (List.mem_append_left _ (hq hu))⟩
    · obtain rfl := List.mem_singleton.1 he
      exact ⟨p, rfl, fun u hu => List.mem_append_left _ (List.mem_append_right _ hu)⟩

theorem Accounts.exists_phrase {ts : List Token} {held : List Expr} {fault : GrammarFault}
    (h : Accounts 0 ts (.stopped held fault)) :
    ∀ e ∈ held, ∃ p : Phrase, p.tree = e ∧ p.tokens ⊆ ts := by
  cases h with
  | operandDue hstack hmet =>
    intro e he
    obtain ⟨p, rfl, hp⟩ := hstack.exists_phrase e he
    exact ⟨p, rfl, fun t ht => List.mem_append_left _ (hp ht)⟩
  | @afterSum stack before rest fault p hstack htop hp hn hmet =>
    intro e he
    rcases List.mem_append.1 he with he | he
    · obtain ⟨q, rfl, hq⟩ := hstack.exists_phrase e he
      exact ⟨q, rfl, fun t ht => List.mem_append_left _ (List.mem_append_left _ (hq ht))⟩
    · obtain rfl := List.mem_singleton.1 he
      exact ⟨p, rfl, fun t ht => List.mem_append_left _ (List.mem_append_right _ ht)⟩

theorem Accounts.metAt {ts : List Token} {held : List Expr} {fault : GrammarFault}
    (h : Accounts 0 ts (.stopped held fault)) : ∃ rest, rest ⊆ ts ∧ MetAt fault rest := by
  cases h with
  | operandDue hstack hmet => exact ⟨_, List.subset_append_right _ _, hmet⟩
  | afterSum hstack htop hp hn hmet => exact ⟨_, List.subset_append_right _ _, hmet⟩

/-- A failed reading fails at the token where the fault is, or where a reducer refuses. -/
theorem refuses_or_metAt {α : Type} {R : Reducer α} {ts : List Token} {err : Error}
    (h : R.read ts = .error err) :
    (∃ e : Expr, e.RootedIn ts ∧ R.Refuses e err) ∨
      ∃ fault rest, err = .grammar fault ∧ rest ⊆ ts ∧ MetAt fault rest := by
  rcases exists_tree_or_fault ts with ⟨p, e, hp, hread⟩ | ⟨held, fault, haccounts, hread⟩
  · rw [hread, Reducer.fold_eq_error_iff] at h
    obtain ⟨before, s, after, hs, -, hr⟩ := h
    have hmem : s ∈ p.tree.reductions := by rw [hp.tree, hs]; simp
    exact .inl ⟨s, hp.tokens ▸ p.rootedIn_of_mem_reductions s hmem, hr⟩
  · rw [hread] at h
    rcases bind_eq_error_iff.1 h with h | ⟨-, -, h⟩
    · obtain ⟨before, s, after, hs, -, hr⟩ := Reducer.foldAll_eq_error_iff.1 h
      have hmem : s ∈ held.flatMap reductions := by rw [hs]; simp
      obtain ⟨e, he, hse⟩ := List.mem_flatMap.1 hmem
      obtain ⟨p, rfl, hp⟩ := haccounts.exists_phrase e he
      exact .inl ⟨s, (p.rootedIn_of_mem_reductions s hse).mono hp, hr⟩
    · cases h
      obtain ⟨rest, hrest, hmet⟩ := haccounts.metAt
      exact .inr ⟨fault, rest, rfl, hrest, hmet⟩

end Expr

namespace Number

theorem eq_undefined_of_ofFinite {x : Binary64} {cause : ArithmeticFault}
    (h : ofFinite x = .error cause) : cause = .undefined := by
  unfold ofFinite at h
  split at h
  · cases h
  · cases h
    rfl

theorem eq_undefined_of_combine {exact : Word → Word → Option Word}
    {rounded : Binary64 → Binary64 → Binary64} {a b : Number} {cause : ArithmeticFault}
    (h : combine exact rounded a b = .error cause) : cause = .undefined := by
  unfold combine at h
  split at h
  · split at h
    · cases h
    · exact eq_undefined_of_ofFinite h
  · exact eq_undefined_of_ofFinite h

/-- Nothing but a quotient divides by zero. -/
theorem eq_div_of_apply {op : BinaryOp} {a b : Number}
    (h : apply op a b = .error .divisionByZero) : op = .div := by
  cases op with
  | div => rfl
  | add | sub | mul | pow => cases eq_undefined_of_combine h

end Number

namespace Value

theorem eq_outOfRange_of_inRange {d : Option Duration} {cause : ArithmeticFault}
    (h : inRange d = .error cause) : cause = .outOfRange := by
  cases d with
  | none => cases h; rfl
  | some d => cases h

theorem eq_outOfRange_of_applySign {op : UnaryOp} {v : Value} {cause : ArithmeticFault}
    (h : v.applySign op = .error cause) : cause = .outOfRange := by
  cases op with
  | plus => cases h
  | minus =>
    cases v with
    | number n => cases h
    | time d => exact eq_outOfRange_of_inRange h

theorem mapError_arithmetic_eq {x : Except ArithmeticFault Value} {cause : ArithmeticFault}
    (h : x.mapError Fault.arithmetic = .error (.arithmetic cause)) : x = .error cause := by
  cases x with
  | ok v => cases h
  | error cause' => cases h; rfl

theorem eq_div_of_apply {op : BinaryOp} {l r : Value}
    (h : apply op l r = .error (.arithmetic .divisionByZero)) : op = .div := by
  have inRange_ne {d : Option Duration}
      (h : (inRange d).mapError Fault.arithmetic = .error (.arithmetic .divisionByZero)) :
      False := by
    cases eq_outOfRange_of_inRange (mapError_arithmetic_eq h)
  cases l with
  | number a =>
    cases r with
    | number b =>
      have hmap : (Number.apply op a b).map number = .error .divisionByZero :=
        mapError_arithmetic_eq h
      cases hn : Number.apply op a b with
      | ok n => rw [hn] at hmap; cases hmap
      | error cause => rw [hn] at hmap; cases hmap; exact Number.eq_div_of_apply hn
    | time d =>
      cases op with
      | mul => exact (inRange_ne h).elim
      | div => rfl
      | add | sub | pow => cases h
  | time c =>
    cases r with
    | number b =>
      cases op with
      | mul => exact (inRange_ne h).elim
      | div => rfl
      | add | sub | pow => cases h
    | time d =>
      cases op with
      | add | sub => exact (inRange_ne h).elim
      | div => rfl
      | mul | pow => cases h

/-- An operator is refused at its own token. -/
theorem points_of_refuses {text : String} {ts : List Token} {e : Expr} {err : Error}
    (hts : Token.ofText text = .ok ts) (he : e.RootedIn ts) (h : reducer.Refuses e err) :
    err.Points text := by
  have isIn {t : Token} (ht : t ∈ ts) : t.In text := ⟨⟨ts, hts, ht⟩, Token.at_of_ofText hts ht⟩
  have writes {t : Token} {op : BinaryOp} (ht : t ∈ ts) (hk : t.kind = .operator op) :
      t.Writes text op := by
    have hspells := Token.spells_of_ofText hts ht
    rw [hk] at hspells
    exact ⟨isIn ht, hk, String.toList_inj.1 hspells.eq_symbol⟩
  cases h with
  | @literal t _ h =>
    obtain ⟨ht, hl⟩ := he
    obtain ⟨form, hk⟩ := Phrase.kind_of_isLiteral hl
    simp only [reducer, ofLiteral, hk] at h
    split at h
    · cases h
    · cases h
      exact .tooLarge (isIn ht) hl
  | @signed op e v position _ hv h =>
    obtain ⟨t, ht, hs, rfl⟩ := he
    obtain ⟨b, hk, -⟩ := Phrase.kind_of_sign? hs
    simp only [reducer] at h
    cases hw : v.applySign op with
    | ok w => rw [hw] at h; cases h
    | error cause =>
      rw [hw] at h
      cases h
      obtain rfl := eq_outOfRange_of_applySign hw
      exact .arithmetic (writes ht hk) (by simp)
  | @binary op left right x y position _ hx hy h =>
    obtain ⟨t, ht, hb, rfl⟩ := he
    have hw := writes ht (Phrase.kind_of_binaryOp? hb)
    simp only [reducer, Kind.check] at h
    cases hc : Kind.combine? op x.kind y.kind with
    | none => rw [hc] at h; cases h; exact .incompatible hw
    | some kind =>
      rw [hc] at h
      rcases apply_of_combine hc with ⟨v, hv, -⟩ | ⟨cause, hf⟩
      · rw [hv] at h; cases h
      · rw [hf] at h
        cases h
        refine .arithmetic hw ?_
        rintro rfl
        exact eq_div_of_apply hf

theorem points_of_metAt {text : String} {ts rest : List Token} {fault : GrammarFault}
    (hts : Token.ofText text = .ok ts) (hrest : rest ⊆ ts) (h : Expr.MetAt fault rest) :
    (Error.grammar fault).Points text := by
  have isIn {t : Token} (ht : t ∈ rest) : t.In text :=
    ⟨⟨ts, hts, hrest ht⟩, Token.at_of_ofText hts (hrest ht)⟩
  cases h with
  | unexpected => exact .unexpected (isIn (by simp))
  | tooDeep => exact .tooDeep (isIn (by simp))
  | endOfInput => exact .endOfInput

end Value

theorem Kind.points_of_expect {text : String} {wanted : Option Kind} {found : Kind} {err : Error}
    (h : Kind.expect wanted found = .error err) : err.Points text := by
  cases wanted with
  | none => cases h
  | some kind =>
    simp only [Kind.expect] at h
    split at h
    · cases h
    · cases h
      exact .wrongKind

/-- Every error of an answer points to its cause in the text. -/
theorem Error.points_of_answer {wanted : Option Kind} {text : String} {err : Error}
    (h : answer wanted text = .error err) : err.Points text := by
  have hvalue : Value.ofText wanted text = .error err := by
    unfold answer at h
    cases hv : Value.ofText wanted text with
    | ok v => rw [hv] at h; cases h
    | error e => rw [hv] at h; cases h; rfl
  cases hts : Token.ofText text with
  | error stop =>
    rw [Value.ofText, hts] at hvalue
    cases hvalue
    exact .unreadable (Token.at_of_ofText_error hts)
  | ok ts =>
    rw [Value.ofText, hts, mapError_ok, ok_bind, Value.ofTokens] at hvalue
    rcases bind_eq_error_iff.1 hvalue with hread | ⟨v, -, hexpect⟩
    · rcases Expr.refuses_or_metAt hread with ⟨e, he, hr⟩ | ⟨fault, rest, rfl, hrest, hmet⟩
      · exact Value.points_of_refuses hts he hr
      · exact Value.points_of_metAt hts hrest hmet
    · rcases bind_eq_error_iff.1 hexpect with hexpect | ⟨-, -, h⟩
      · exact Kind.points_of_expect hexpect
      · cases h

theorem Error.points_to_divisor :
    answer none "2*(0:30/(1-1))" = .error (.run (.arithmetic .divisionByZero (some 7))) ∧
    (Error.run (.arithmetic .divisionByZero (some 7))).Points "2*(0:30/(1-1))" := by
  have h : answer none "2*(0:30/(1-1))" =
      .error (.run (.arithmetic .divisionByZero (some 7))) := by rfl
  exact ⟨h, Error.points_of_answer h⟩

end ClockCalc
