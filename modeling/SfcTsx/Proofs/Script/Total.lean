import SfcTsx.Proofs.Script.Loops

namespace SfcTsx.Script.Tolerant

variable {stop offset : Nat} {body : List Stmt}

/-- The functions that move the cursor, at a level of nesting. -/
inductive Production (up : Level) : {α : Type} → Parse α → Prop
  -- Looking and taking.
  | peek : Production up peek
  | ahead (n : Nat) : Production up (ahead n)
  | isAt (kind : TokenKind) : Production up (isAt kind)
  | isAtWord (word : String) : Production up (isAtWord word)
  | isAtCloser : Production up isAtCloser
  | isAtStmtEnd : Production up isAtStmtEnd
  | startOffset : Production up startOffset
  | endOffset : Production up endOffset
  | spanFrom (start : Nat) : Production up (spanFrom start)
  | bump : Production up bump
  | eat (kind : TokenKind) : Production up (eat kind)
  | eatWord (word : String) : Production up (eatWord word)
  | accept (kind : TokenKind) : Production up (accept kind)
  | skipBalanced : Production up skipBalanced
  | skipAngle : Production up skipAngle
  | skipType (stops : List TokenKind) : Production up (skipType stops)
  | skipStmt : Production up skipStmt
  | skipOperand : Production up skipOperand
  | repeatUntil {α : Type} {stop : Parse Bool} {item : Parse (List α)} (hstop : Production up stop)
      (hitem : Production up item) : Production up (repeatUntil stop item)
  | advancing {α : Type} {item : Parse α} (h : Production up item) : Production up (advancing item)
  | listed {α : Type} {item : Parse (List α)} (h : Production up item) : Production up (listed item)
  -- One level deeper.
  | stmt : Production up up.stmt
  | assign : Production up up.assign
  | unary : Production up up.unary
  | primary : Production up up.primary
  | bindingPat : Production up up.bindingPat
  -- Statements in braces, operands and their suffixes.
  | sequence : Production up up.sequence
  | braced : Production up up.braced
  | block : Production up up.block
  | blockBody : Production up up.blockBody
  | spreadable : Production up up.spreadable
  | arguments : Production up up.arguments
  | indexed (start : Nat) (object : Expr) : Production up (up.indexed start object)
  | typeArguments? : Production up Level.typeArguments?
  | dotted? (start : Nat) (optional : Bool) (object : Expr) :
      Production up (up.dotted? start optional object)
  | suffix? (start : Nat) (operand : Expr) : Production up (up.suffix? start operand)
  | suffixes (start fuel : Nat) (operand : Expr) : Production up (up.suffixes start fuel operand)
  | operand : Production up up.operand
  | decorators : Production up up.decorators
  -- Patterns, functions and classes.
  | propKey? : Production up up.propKey?
  | patType : Production up Level.patType
  | patWithDefault : Production up up.patWithDefault
  | patProp? : Production up up.patProp?
  | objectPat (start : Nat) : Production up (up.objectPat start)
  | elements {α : Type} {item : Parse α} (h : Production up item) : Production up (Level.elements item)
  | arrayPat (start : Nat) : Production up (up.arrayPat start)
  | pattern : Production up up.pattern
  | skipParamModifiers : Production up Level.skipParamModifiers
  | params : Production up up.params
  | functionTail (start : Nat) (ident : Option Ident) (isAsync : Bool) :
      Production up (up.functionTail start ident isAsync)
  | function : Production up up.function
  | skipMemberModifiers : Production up Level.skipMemberModifiers
  | classMember : Production up up.classMember
  | classBody : Production up up.classBody
  | classDecl : Production up up.classDecl
  -- Expressions.
  | skipUntil (kinds : List TokenKind) : Production up (skipUntil kinds)
  | skipOpeningTag : Production up skipOpeningTag
  | skipMarkup (fuel depth : Nat) : Production up (skipMarkup fuel depth)
  | arrayLit : Production up up.arrayLit
  | objectProp? : Production up up.objectProp?
  | objectLit : Production up up.objectLit
  | wordPrimary (token : Token) : Production up (up.wordPrimary token)
  | primaryExpr : Production up up.primaryExpr
  | unaryExpr : Production up up.unaryExpr
  | binaryRest (start fuel : Nat) (left : Expr) : Production up (up.binaryRest start fuel left)
  | binary : Production up up.binary
  | conditional : Production up up.conditional
  | arrowParams : Production up up.arrowParams
  | arrow (isAsync : Bool) : Production up (up.arrow isAsync)
  | assignExpr : Production up up.assignExpr
  -- Statements.
  | moduleName : Production up moduleName
  | isAtTypeModifier : Production up isAtTypeModifier
  | specifierName? : Production up specifierName?
  | importSpecifier? : Production up importSpecifier?
  | exportSpecifier? : Production up exportSpecifier?
  | specifiers {α : Type} {item : Parse (Option α)} (h : Production up item) :
      Production up (specifiers item)
  | starSpecifier : Production up starSpecifier
  | skipImportAttributes : Production up skipImportAttributes
  | importStmt : Production up importStmt
  | fromClause? : Production up fromClause?
  | exportStar (start : Nat) (typeOnly : Bool) : Production up (exportStar start typeOnly)
  | enumStmt : Production up enumStmt
  | typeAlias : Production up typeAlias
  | interfaceStmt : Production up interfaceStmt
  | defaultExport : Production up up.defaultExport
  | exportStmt : Production up up.exportStmt
  | declarator : Production up up.declarator
  | declarators (fuel : Nat) : Production up (up.declarators fuel)
  | varStmt : Production up up.varStmt
  | declareStmt : Production up up.declareStmt
  | namespaceStmt : Production up up.namespaceStmt
  | ifStmt : Production up up.ifStmt
  | returnStmt : Production up up.returnStmt
  | headExprs : Production up up.headExprs
  | blocks : Production up up.blocks
  | tryBlocks : Production up up.tryBlocks
  | keywordParts (keyword : String) : Production up (up.keywordParts keyword)
  | keywordStmt : Production up up.keywordStmt
  | exprStmt : Production up up.exprStmt
  | classStmt : Production up up.classStmt
  | wordStmt (token : Token) : Production up (up.wordStmt token)
  | decoratedStmt : Production up up.decoratedStmt
  | statement : Production up up.statement
  | stmts : Production up stmts

variable {input : Input} [input.Lined] {up : Level} {α γ : Type}

theorem Production.forward [up.Keeps input] {p : Parse α} (h : Production up p) : Forward input p := by
  induction h <;> infer_instance

/-- The recursions that are given a bound, as functions of the bound and the index they start at. -/
inductive Fueled (input : Input) (up : Level) : {γ : Type} → (Nat → Nat → γ) → Prop
  | loop {α : Type} {stop : Parse Bool} {item : Parse (List α)} (h : Loop input up stop item) :
      Fueled input up fun fuel i => repeatFor stop item fuel input i
  | suffixes (start : Nat) (operand : Expr) :
      Fueled input up fun fuel i => up.suffixes start fuel operand input i
  | binaryRest (start : Nat) (left : Expr) :
      Fueled input up fun fuel i => up.binaryRest start fuel left input i
  | declarators : Fueled input up fun fuel i => up.declarators fuel input i
  | skipMarkup (depth : Nat) : Fueled input up fun fuel i => skipMarkup fuel depth input i
  | matching (depth : Nat) : Fueled input up fun fuel i => input.matchingFrom fuel depth i
  | matchingAngle (typeLike : Bool) (angles nest : Nat) :
      Fueled input up fun fuel i => input.matchingAngleFrom typeLike fuel angles nest i
  | typeEnd (stops : List TokenKind) (first nest angles : Nat) :
      Fueled input up fun fuel i => input.typeEndFrom stops first fuel nest angles i
  | stmtEnd (first depth : Nat) : Fueled input up fun fuel i => input.stmtEndFrom first fuel depth i
  | arrowAfterType (nest : Nat) : Fueled input up fun fuel i => input.arrowAfterType fuel nest i

theorem Fueled.sated [up.Keeps input] [up.Takes input] {q : Nat → Nat → γ} (h : Fueled input up q) :
    Sated input q := by
  cases h with
  | loop h => exact h.advances.sated
  | suffixes start operand => exact suffixes_sated start operand
  | binaryRest start left => exact binaryRest_sated start left
  | declarators => exact declarators_sated
  | skipMarkup depth => exact skipMarkup_sated depth
  | matching depth => exact Input.matchingFrom_sated depth
  | matchingAngle typeLike angles nest => exact Input.matchingAngleFrom_sated typeLike angles nest
  | typeEnd stops first nest angles => exact Input.typeEndFrom_sated stops first nest angles
  | stmtEnd first depth => exact Input.stmtEndFrom_sated first depth
  | arrowAfterType nest => exact Input.arrowAfterType_sated nest

/-- Statements one behind the other, from an offset on. -/
inductive Follows (stop : Nat) : Nat → List Stmt → Prop
  | nil {offset : Nat} : Follows stop offset []
  | cons {offset : Nat} {stmt : Stmt} {stmts : List Stmt} (hstart : offset ≤ stmt.span.start)
      (hle : stmt.span.start ≤ stmt.span.stop) (hstop : stmt.span.stop ≤ stop)
      (hrest : Follows stop stmt.span.stop stmts) : Follows stop offset (stmt :: stmts)

namespace Follows

theorem mono {o : Nat} (h : Follows stop o body) (hle : offset ≤ o) : Follows stop offset body := by
  cases h with
  | nil => exact .nil
  | cons hstart hspan hstop hrest => exact .cons (Nat.le_trans hle hstart) hspan hstop hrest

theorem mem (h : Follows stop offset body) {stmt : Stmt} (hmem : stmt ∈ body) :
    offset ≤ stmt.span.start ∧ stmt.span.start ≤ stmt.span.stop ∧ stmt.span.stop ≤ stop := by
  induction h with
  | nil => cases hmem
  | cons hstart hle hstop _ ih =>
    cases hmem with
    | head => exact ⟨hstart, hle, hstop⟩
    | tail _ hmem =>
      have := ih hmem
      omega

theorem pairwise (h : Follows stop offset body) :
    body.Pairwise fun a b => a.span.stop ≤ b.span.start := by
  induction h with
  | nil => exact .nil
  | cons _ _ _ hrest ih => exact .cons (fun stmt hmem => (hrest.mem hmem).1) ih

end Follows

theorem follows_repeatFor [up.Keeps input] {fuel i : Nat} (hi : i ≤ input.last) :
    Follows input.source.size (input.tokenAt i).span.start
      (repeatFor (isAt .endOfText) (do return [← up.stmt]) fuel input i).1 := by
  induction fuel generalizing i with
  | zero => exact .nil
  | succ fuel ih =>
    simp only [repeatFor, bind_run, isAt_run]
    by_cases hend : (input.tokenAt i).kind = .endOfText
    · simp only [hend, beq_self_eq_true, if_true, pure_run]
      exact .nil
    · simp only [beq_eq_false_iff_ne.mpr hend, Bool.false_eq_true, if_false, bind_run, pure_run,
        List.singleton_append]
      have hfwd : Forward input up.stmt := inferInstance
      have hlast := hfwd.le_last i hi
      obtain ⟨z, hz, hstart⟩ := Taken.zone (hfwd.le i hi) hlast
      have hspans := ((Level.Keeps.stmt True z).lies trivial i hz).tree.spans
      have hstop := hz.next ▸ hspans.stop_le
      refine .cons (hstart ▸ hspans.start_le) hspans.le ?_ ((ih hlast).mono hstop)
      calc (up.stmt input i).1.span.stop
          ≤ (input.tokenAt (up.stmt input i).2).span.start := hstop
        _ ≤ (input.tokenAt (up.stmt input i).2).span.stop := Input.Lined.span_le _
        _ ≤ input.source.size := Input.Lined.stop_le _

theorem stmts_last : (stmts input 0).2 = input.last := by
  have hadvances := (Loop.stmts : Loop input (level maxDepth) _ _).advances
  have hzero : 0 ≤ input.last := Nat.zero_le _
  have hstop : (isAt .endOfText input (stmts input 0).2).1 = true := by
    simp only [stmts, repeatUntil, bind_run, read_run, get_run]
    refine hadvances.stop_repeatFor hzero ?_
    rw [Input.size_eq]
    omega
  rw [isAt_run, beq_iff_eq] at hstop
  have hforward : Forward input stmts := inferInstance
  exact (Input.Lined.kind_iff _ (hforward.le_last 0 hzero)).mp hstop

/-- For every text and dialect: the recursions of the parser are never cut short; its functions move the
cursor neither back nor past the end of the text, which is the last token and only that; a statement takes
a token wherever one is left; the whole text is taken; and the statements lie in the text, one behind the
other. -/
theorem parse_total (dialect : Dialect) (source : Text) : let input := Input.ofText dialect source
    (∀ depth (γ : Type) (q : Nat → Nat → γ), Fueled input (level depth) q →
      ∀ i ≤ input.last, ∀ fuel ≥ input.tokens.size - i, q fuel i = q (input.tokens.size - i) i) ∧
    (∀ i ≤ input.last, (input.tokenAt i).kind = .endOfText ↔ i = input.last) ∧
    (∀ depth (α : Type) (p : Parse α), Production (level depth) p →
      ∀ i ≤ input.last, i ≤ (p input i).2 ∧ (p input i).2 ≤ input.last) ∧
    (∀ depth, ∀ i ≤ input.last, (input.tokenAt i).kind ≠ .endOfText →
      i < ((level depth).stmt input i).2) ∧
    (stmts input 0).2 = input.last ∧
    (∀ stmt ∈ (parse dialect source).body,
      stmt.span.start ≤ stmt.span.stop ∧ stmt.span.stop ≤ source.size) ∧
    (parse dialect source).body.Pairwise fun a b => a.span.stop ≤ b.span.start := by
  intro input
  have hbody : Follows input.source.size (input.tokenAt 0).span.start (parse dialect source).body :=
    follows_repeatFor (Nat.zero_le _)
  refine ⟨fun depth γ q h => h.sated, Input.Lined.kind_iff, fun depth α p h i hi => ?_,
    fun depth i hi hend => ?_, stmts_last, fun stmt hmem => (hbody.mem hmem).2, hbody.pairwise⟩
  · exact ⟨h.forward.le i hi, h.forward.le_last i hi⟩
  · exact Level.Takes.stmt.lt i (Input.lt_last hi hend)

end SfcTsx.Script.Tolerant
