import SfcTsx.Proofs.Script.Spans

namespace SfcTsx.Script.Tolerant

/-- The parser takes a token where the next one is as given. -/
class TakesWhen (input : Input) (c : Token → Prop) {α : Type} (p : Parse α) : Prop where
  lt : ∀ i < input.last, c (input.tokenAt i) → i < (p input i).2

/-- An expression can begin with the token, if only with a comma. -/
def Begins (token : Token) : Prop :=
  token.kind ∉ [.closeParen, .closeBracket, .closeBrace, .semicolon]

def Operand (token : Token) : Prop := Begins token ∧ token.kind ≠ .comma

variable {input : Input} {c : Token → Prop} {α β : Type}

namespace TakesWhen

instance (priority := low) of_takes {p : Parse α} [hp : Takes input p] : TakesWhen input c p where
  lt i hi _ := hp.lt i hi

theorem imp {d : Token → Prop} {p : Parse α} (hp : TakesWhen input d p) (h : ∀ t, c t → d t) :
    TakesWhen input c p where
  lt i hi hc := hp.lt i hi (h _ hc)

instance bind_left {p : Parse α} {f : α → Parse β} [hp : TakesWhen input c p] [hfp : Forward input p]
    [hf : ∀ a, Forward input (f a)] : TakesWhen input c (p >>= f) where
  lt i hi hc := Nat.lt_of_lt_of_le (hp.lt i hi hc) ((hf _).le _ (hfp.le_last i (Nat.le_of_lt hi)))

theorem bind_looks_intro {p : Parse α} {f : α → Parse β} (hp : Looks input p)
    (hf : ∀ a, TakesWhen input c (f a)) : TakesWhen input c (p >>= f) where
  lt i hi hc := by
    rw [bind_run, hp.eq]
    exact (hf _).lt i hi hc

instance bind_looks {p : Parse α} {f : α → Parse β} [hp : Looks input p]
    [hf : ∀ a, TakesWhen input c (f a)] : TakesWhen input c (p >>= f) := bind_looks_intro hp hf

instance ite {d : Prop} [Decidable d] {p q : Parse α} [hp : TakesWhen input c p]
    [hq : TakesWhen input c q] : TakesWhen input c (if d then p else q) := by
  split
  · exact hp
  · exact hq

theorem peek_bind [input.Lined] {f : Token → Parse α}
    (h : ∀ token, c token → token.kind ≠ .endOfText → TakesWhen input (· = token) (f token)) :
    TakesWhen input c (peek >>= f) where
  lt i hi hc := (h _ hc (Input.kind_ne hi)).lt i hi rfl

end TakesWhen

theorem Takes.peek_bind [input.Lined] {f : Token → Parse α}
    (h : ∀ token, token.kind ≠ .endOfText → TakesWhen input (· = token) (f token)) :
    Takes input (peek >>= f) where
  lt i hi := (h _ (Input.kind_ne hi)).lt i hi rfl

/-- The statements of the level take a token wherever one is left, its expressions where an operand
begins. -/
class Level.Takes (input : Input) (up : Level) : Prop where
  stmt : Tolerant.Takes input up.stmt
  assign : TakesWhen input Operand up.assign
  unary : TakesWhen input Operand up.unary
  primary : TakesWhen input Operand up.primary

attribute [instance] Level.Takes.stmt Level.Takes.assign Level.Takes.unary Level.Takes.primary

variable [input.Lined] {up : Level} [up.Keeps input] [up.Takes input]

section productions

set_option synthInstance.maxSize 65536

namespace Takes

instance params : Takes input up.params := by
  unfold Level.params
  infer_instance

instance function : Takes input up.function := by
  unfold Level.function
  infer_instance

instance classDecl : Takes input up.classDecl := by
  unfold Level.classDecl
  simp -zeta only [ite_bind_join, ite_bind_unit]
  dsimp only
  infer_instance

instance wordPrimary (token : Token) : Takes input (up.wordPrimary token) := by
  unfold Level.wordPrimary
  dsimp only
  refine looks_bind inferInstance fun next => ?_
  split <;> infer_instance

instance skipMarkup (fuel depth : Nat) : Takes input (Tolerant.skipMarkup (fuel + 1) depth) := by
  unfold Tolerant.skipMarkup
  refine peek_bind fun token hend => ?_
  split
  next hkind => exact absurd hkind hend
  all_goals infer_instance

instance markup {f : Unit → Parse α} [hf : ∀ a, Forward input (f a)] :
    Takes input (do
      let input ← read
      let i ← get
      Tolerant.skipMarkup (input.tokens.size - i) 0 >>= f) where
  lt i hi := by
    have hsize : input.tokens.size - i = input.last - i + 1 := by
      rw [Input.size_eq]
      omega
    simp only [bind_run, read_run, get_run, hsize]
    exact Nat.lt_of_lt_of_le ((skipMarkup _ 0).lt i hi)
      ((hf _).le _ ((Forward.skipMarkup _ 0).le_last i (Nat.le_of_lt hi)))

instance arrayLit : Takes input up.arrayLit := by
  unfold Level.arrayLit
  infer_instance

instance objectLit : Takes input up.objectLit := by
  unfold Level.objectLit
  infer_instance

instance arrowParams : Takes input up.arrowParams := by
  unfold Level.arrowParams
  infer_instance

instance arrow (isAsync : Bool) : Takes input (up.arrow isAsync) := by
  unfold Level.arrow
  infer_instance

end Takes

namespace TakesWhen

instance skipOperand : TakesWhen input Operand skipOperand where
  lt i hi hc := by
    have hopen : (isAtCloser input i).1 = false := by
      have hend := Input.kind_ne hi
      have hbegins := hc.1
      simp only [Begins, List.mem_cons, not_or] at hbegins
      simp only [isAtCloser, bind_run, peek_run, pure_run, Token.isCloser]
      simp [hbegins, hend]
    simp only [Tolerant.skipOperand, bind_run, peek_run]
    rw [hopen]
    exact Takes.bump.lt i hi

instance operand : TakesWhen input Operand up.operand := by
  unfold Level.operand
  infer_instance

instance primaryExpr : TakesWhen input Operand up.primaryExpr := by
  unfold Level.primaryExpr
  refine peek_bind fun token hoperand hend => ?_
  dsimp only
  split
  -- At a token that no operand begins with, the expression is empty.
  case h_10 hkind => exact absurd hoperand (by simp [Operand, Begins, hkind])
  case h_11 hkind => exact absurd hoperand (by simp [Operand, Begins, hkind])
  case h_12 hkind => exact absurd hoperand (by simp [Operand, Begins, hkind])
  case h_13 hkind => exact absurd hoperand (by simp [Operand, Begins, hkind])
  case h_14 hkind => exact absurd hoperand (by simp [Operand, Begins, hkind])
  case h_15 hkind => exact absurd hkind hend
  all_goals infer_instance

instance unaryExpr : TakesWhen input Operand up.unaryExpr := by
  unfold Level.unaryExpr
  refine peek_bind fun token hoperand _ => ?_
  have hrest : TakesWhen input (· = token) up.operand := operand.imp fun t ht => ht ▸ hoperand
  dsimp only
  split <;> infer_instance

instance conditional : TakesWhen input Operand up.conditional := by
  unfold Level.conditional Level.binary
  infer_instance

instance assignExpr : TakesWhen input Operand up.assignExpr := by
  unfold Level.assignExpr
  infer_instance

end TakesWhen

theorem repeatUntil_lt {stop : Parse Bool} {item : Parse (List α)} [hstop : Looks input stop]
    [hitem : Forward input item] {i : Nat} (hi : i ≤ input.last) (hgo : (stop input i).1 = false)
    (hlt : i < (item input i).2) : i < (repeatUntil stop item input i).2 := by
  have hsize : input.tokens.size - i = input.last - i + 1 := by
    rw [Input.size_eq]
    omega
  simp only [repeatUntil, bind_run, read_run, get_run, hsize, repeatFor, hgo, hstop.eq]
  exact Nat.lt_of_lt_of_le hlt ((Forward.repeatFor _).le _ (hitem.le_last i hi))

namespace TakesWhen

instance accept (kind : TokenKind) : TakesWhen input (·.kind = kind) (accept kind) where
  lt i hi hkind := by
    have hat : (isAt kind input i).1 = true := by simp [isAt_run, hkind]
    simp only [Tolerant.accept, eat, discard_run, bind_run, hat]
    exact Takes.bump.lt i hi

instance sequence : TakesWhen input Begins up.sequence where
  lt i hi hbegins := by
    have hassign : Forward input up.assign := inferInstance
    have hle := hassign.le i (Nat.le_of_lt hi)
    have hlast := hassign.le_last i (Nat.le_of_lt hi)
    simp only [Level.sequence, bind_run, startOffset_run, isAt_run, beq_iff_eq]
    by_cases hcomma : (input.tokenAt (up.assign input i).2).kind = .comma
    · -- The loop takes the comma, if nothing has been taken in front of it.
      rw [if_pos hcomma]
      refine Nat.lt_of_le_of_lt hle (repeatUntil_lt hlast (by simp [bind_run, peek_run, pure_run, hcomma]) ?_)
      refine TakesWhen.lt (c := (·.kind = .comma)) _ ?_ hcomma
      exact Input.lt_last_of_kind hlast hcomma (by decide)
    · rw [if_neg hcomma, pure_run]
      by_cases hoperand : (input.tokenAt i).kind = .comma
      · exact Nat.lt_of_le_of_ne hle fun heq => hcomma (heq ▸ hoperand)
      · exact Level.Takes.assign.lt i hi ⟨hbegins, hoperand⟩

instance exprStmt : TakesWhen input Begins up.exprStmt := by
  unfold Level.exprStmt
  infer_instance

end TakesWhen

namespace Takes

instance block : Takes input up.block := by
  unfold Level.block Level.braced
  infer_instance

instance importStmt : Takes input importStmt := by
  unfold Tolerant.importStmt
  simp -zeta only [ite_bind_join, ite_bind_unit]
  dsimp only
  infer_instance

instance enumStmt : Takes input enumStmt := by
  unfold Tolerant.enumStmt
  infer_instance

instance typeAlias : Takes input typeAlias := by
  unfold Tolerant.typeAlias
  infer_instance

instance interfaceStmt : Takes input interfaceStmt := by
  unfold Tolerant.interfaceStmt
  infer_instance

instance exportStmt : Takes input up.exportStmt := by
  unfold Level.exportStmt
  infer_instance

instance varStmt : Takes input up.varStmt := by
  unfold Level.varStmt
  infer_instance

instance declareStmt : Takes input up.declareStmt := by
  unfold Level.declareStmt
  infer_instance

instance namespaceStmt : Takes input up.namespaceStmt := by
  unfold Level.namespaceStmt
  infer_instance

instance ifStmt : Takes input up.ifStmt := by
  unfold Level.ifStmt
  infer_instance

instance returnStmt : Takes input up.returnStmt := by
  unfold Level.returnStmt
  infer_instance

instance keywordStmt : Takes input up.keywordStmt := by
  unfold Level.keywordStmt
  infer_instance

instance classStmt : Takes input up.classStmt := by
  unfold Level.classStmt
  infer_instance

instance decoratedStmt : Takes input up.decoratedStmt := by
  unfold Level.decoratedStmt
  refine looks_bind inferInstance fun start => bind_right_intro inferInstance (fun _ => ?_) fun _ => ?_
  · refine bind_left_intro inferInstance inferInstance fun stmt => ?_
    split <;> infer_instance
  · refine Forward.bind_intro inferInstance fun stmt => ?_
    split <;> infer_instance

theorem wordStmt {token : Token} (hword : token.kind = .word) :
    TakesWhen input (· = token) (up.wordStmt token) := by
  have hexpr : TakesWhen input (· = token) up.exprStmt :=
    TakesWhen.exprStmt.imp fun t ht => by simp [ht, Begins, hword]
  unfold Level.wordStmt
  infer_instance

instance statement : Takes input up.statement := by
  unfold Level.statement
  refine peek_bind fun token hend => ?_
  split
  case h_7 hkind => exact wordStmt hkind
  case h_8 hne =>
    exact TakesWhen.exprStmt.imp fun t ht => by simp_all [Begins]
  all_goals infer_instance

end Takes
end productions

namespace Level.Takes

instance bottom : Level.bottom.Takes input where
  stmt := by
    unfold Level.bottom
    infer_instance
  assign := by
    unfold Level.bottom
    infer_instance
  unary := by
    unfold Level.bottom
    infer_instance
  primary := by
    unfold Level.bottom
    infer_instance

instance level (depth : Nat) : (level depth).Takes input := by
  induction depth with
  | zero => exact bottom
  | succ depth ih => exact ⟨.statement, .assignExpr, .unaryExpr, .primaryExpr⟩

end Level.Takes

end SfcTsx.Script.Tolerant
