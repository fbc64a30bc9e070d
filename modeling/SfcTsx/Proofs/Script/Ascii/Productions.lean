import SfcTsx.Proofs.Script.Ascii.Lookahead
import SfcTsx.Proofs.Script.Cursor
import Mathlib.Order.MinMax

namespace SfcTsx.Script.Tolerant

variable {e e' : Expr} {fuel' : Nat} {s s' : Span} {b b' : Bool} {t : Token}

/-- From the ASCII form and from the script the parsers take the same tokens, and their results belong
together. -/
class Along (a : Ascii) (i j : Input) {α : Type} [Paired α] (p q : Parse α) : Prop where
  run : ∀ n, Paired.rel a (p i n).1 (q j n).1 ∧ (p i n).2 = (q j n).2

/-- From both one parser takes the same tokens, and its results belong together. -/
abbrev Alike (a : Ascii) (i j : Input) {α : Type} [Paired α] (p : Parse α) : Prop := Along a i j p p

variable {a : Ascii} {i j : Input} {α β : Type} [Paired α] [Paired β]

namespace Along

theorem bind_intro {p q : Parse α} {f g : α → Parse β} (hp : Along a i j p q)
    (hf : ∀ x y, Pair a x y → Along a i j (f x) (g y)) : Along a i j (p >>= f) (q >>= g) where
  run n := by
    obtain ⟨hrel, hindex⟩ := hp.run n
    rw [bind_run, bind_run, hindex]
    exact (hf _ _ ⟨hrel⟩).run _

instance bind {p q : Parse α} {f g : α → Parse β} [hp : Along a i j p q]
    [hf : ∀ z : Match a α, Along a i j (f z.left) (g z.right)] : Along a i j (p >>= f) (q >>= g) :=
  bind_intro hp fun x y h => hf ⟨x, y, h.rel⟩

theorem bind_prod {γ : Type} [Paired γ] {p q : Parse (α × β)} {f g : α × β → Parse γ}
    (hp : Along a i j p q)
    (hf : ∀ x y x' y', Pair a x y → Pair a x' y' → Along a i j (f (x, x')) (g (y, y'))) :
    Along a i j (p >>= f) (q >>= g) :=
  bind_intro hp fun _ _ h => hf _ _ _ _ ⟨h.rel.1⟩ ⟨h.rel.2⟩

theorem bind_same [Rigid α] {p q : Parse α} {f g : α → Parse β} (hp : Along a i j p q)
    (hf : ∀ x, Along a i j (f x) (g x)) : Along a i j (p >>= f) (q >>= g) where
  run n := by
    obtain ⟨hrel, hindex⟩ := hp.run n
    rw [bind_run, bind_run, hindex, Rigid.eq_of_rel hrel]
    exact (hf _).run _

instance (priority := high) bind_rigid [Rigid α] {p q : Parse α} {f g : α → Parse β}
    [hp : Along a i j p q] [hf : ∀ x, Along a i j (f x) (g x)] : Along a i j (p >>= f) (q >>= g) :=
  bind_same hp hf

instance pure {x y : α} [h : Pair a x y] : Along a i j (pure x) (pure y) := ⟨fun _ => ⟨h.rel, rfl⟩⟩

instance map {p q : Parse α} {f g : α → β} [hp : Along a i j p q]
    [hf : ∀ z : Match a α, Pair a (f z.left) (g z.right)] : Along a i j (f <$> p) (g <$> q) where
  run n := by
    obtain ⟨hrel, hindex⟩ := hp.run n
    exact ⟨(hf ⟨_, _, hrel⟩).rel, hindex⟩

instance discard {p q : Parse α} [hp : Along a i j p q] :
    Along a i j (discard p) (discard q) := ⟨fun n => ⟨rfl, (hp.run n).2⟩⟩

theorem ite_intro {c c' : Prop} [Decidable c] [Decidable c'] {p q p' q' : Parse α} (hc : Same a c c')
    (hp : Along a i j p p') (hq : Along a i j q q') :
    Along a i j (if c then p else q) (if c' then p' else q') := by
  obtain rfl : c = c' := hc.eq
  split
  · exact hp
  · exact hq

instance ite {c c' : Prop} [Decidable c] [Decidable c'] {p q p' q' : Parse α} [hc : Same a c c']
    [hp : Along a i j p p'] [hq : Along a i j q q'] :
    Along a i j (if c then p else q) (if c' then p' else q') := ite_intro hc hp hq

instance read {f g : Input → Parse α} [h : Along a i j (f i) (g j)] :
    Along a i j (read >>= f) (read >>= g) := ⟨h.run⟩

instance get {f g : Nat → Parse α} [h : ∀ n, Along a i j (f n) (g n)] :
    Along a i j (get >>= f) (get >>= g) := ⟨fun n => (h n).run n⟩

instance set (n : Nat) : Alike a i j (set n) := ⟨fun _ => ⟨rfl, rfl⟩⟩

variable [ht : Input.Twins a i j]

instance tokenAt (n : Nat) : Pair a (i.tokenAt n) (j.tokenAt n) := ht.pair n

instance dialect : Same a i.dialect j.dialect := ⟨ht.dialect⟩

instance fuel (n : Nat) : Same a (i.tokens.size - n) (j.tokens.size - n) := ⟨by rw [ht.size]⟩

instance fuel_succ (n : Nat) : Same a (i.tokens.size - n + 1) (j.tokens.size - n + 1) := ⟨by rw [ht.size]⟩

instance peek : Alike a i j peek := by
  unfold Tolerant.peek
  infer_instance

instance ahead (n : Nat) : Alike a i j (ahead n) := by
  unfold Tolerant.ahead
  infer_instance

instance isAt (kind : TokenKind) : Alike a i j (isAt kind) := by
  unfold Tolerant.isAt
  infer_instance

instance isAtWord (word : String) [Plain word] : Alike a i j (isAtWord word) := by
  unfold Tolerant.isAtWord
  infer_instance

instance modify (f : Nat → Nat) : Alike a i j (modify f) := ⟨fun _ => ⟨rfl, rfl⟩⟩

instance bump : Alike a i j bump := by
  unfold Tolerant.bump
  infer_instance

instance eat (kind : TokenKind) : Alike a i j (eat kind) := by
  unfold Tolerant.eat
  infer_instance

instance eatWord (word : String) [Plain word] : Alike a i j (eatWord word) := by
  unfold Tolerant.eatWord
  infer_instance

instance accept (kind : TokenKind) : Alike a i j (accept kind) := by
  unfold Tolerant.accept
  infer_instance

instance startOffset : Alike a i j startOffset := by
  unfold Tolerant.startOffset
  infer_instance

instance endBefore (n : Nat) : Pair a (i.endBefore n) (j.endBefore n) := ⟨ht.endBefore n⟩

instance endOffset : Alike a i j endOffset := by
  unfold Tolerant.endOffset
  infer_instance

instance spanFrom {s s' : Nat} [hs : Pair a s s'] : Along a i j (spanFrom s) (spanFrom s') where
  run n := by
    have hmax : a.offset (max (i.endBefore n) s) = max (j.endBefore n) s' := by
      rw [Monotone.map_max ht.offset_mono, ht.endBefore, show a.offset s = s' from hs.rel]
    exact ⟨congrArg₂ Span.mk hs.rel hmax, rfl⟩

instance isAtCloser : Alike a i j isAtCloser := by
  unfold Tolerant.isAtCloser
  infer_instance

instance isAtStmtEnd : Alike a i j isAtStmtEnd := by
  unfold Tolerant.isAtStmtEnd
  infer_instance

instance skipBalanced : Alike a i j skipBalanced := by
  unfold Tolerant.skipBalanced
  refine read (h := get (h := fun n => ?_))
  rw [ht.matching, ht.last]
  split <;> infer_instance

instance skipAngle : Alike a i j skipAngle := by
  unfold Tolerant.skipAngle
  refine read (h := get (h := fun n => ?_))
  rw [ht.matchingAngle]
  split <;> infer_instance

instance skipType (stops : List TokenKind) : Alike a i j (skipType stops) := by
  unfold Tolerant.skipType
  refine get (h := fun n => bind_intro inferInstance fun start start' _ => read (h := ?_))
  rw [ht.typeEnd]
  infer_instance

instance skipStmt : Alike a i j skipStmt := by
  unfold Tolerant.skipStmt
  refine read (h := ?_)
  rw [ht.stmtEnd]
  infer_instance

instance skipOperand : Alike a i j skipOperand := by
  unfold Tolerant.skipOperand
  infer_instance

instance repeatFor {stop : Parse Bool} [Alike a i j stop] {p q : Parse (List α)} [Along a i j p q]
    (fuel : Nat) : Along a i j (repeatFor stop p fuel) (repeatFor stop q fuel) := by
  induction fuel with
  | zero =>
    unfold Tolerant.repeatFor
    infer_instance
  | succ fuel ih =>
    unfold Tolerant.repeatFor
    infer_instance

instance repeatUntil {stop : Parse Bool} [Alike a i j stop] {p q : Parse (List α)}
    [Along a i j p q] : Along a i j (repeatUntil stop p) (repeatUntil stop q) := by
  unfold Tolerant.repeatUntil
  refine read (h := get (h := fun n => ?_))
  rw [ht.size]
  infer_instance

instance advancing {p q : Parse α} [Along a i j p q] : Along a i j (advancing p) (advancing q) := by
  unfold Tolerant.advancing
  simp -zeta only [ite_bind_unit]
  dsimp only
  infer_instance

instance listed {p q : Parse (List α)} [Along a i j p q] : Along a i j (listed p) (listed q) := by
  unfold Tolerant.listed
  infer_instance

end Along

/-- The parsers of the level take the same tokens, and their results belong together. -/
class Level.Along (a : Ascii) (i j : Input) (up : Level) : Prop where
  stmt : Alike a i j up.stmt
  assign : Alike a i j up.assign
  unary : Alike a i j up.unary
  primary : Alike a i j up.primary
  bindingPat : Alike a i j up.bindingPat

attribute [instance] Level.Along.stmt Level.Along.assign Level.Along.unary Level.Along.primary
  Level.Along.bindingPat

namespace Along

-- The size of an instance doubles with each conditional of a production.
set_option synthInstance.maxSize 262144

variable [ht : Input.Twins a i j] {up : Level} [up.Along a i j] {start start' : Nat}
  [Pair a start start']

instance sequence : Alike a i j up.sequence := by
  unfold Level.sequence
  infer_instance

instance braced : Alike a i j up.braced := by
  unfold Level.braced
  infer_instance

instance block : Alike a i j up.block := by
  unfold Level.block
  exact bind_prod inferInstance fun _ _ _ _ _ _ => inferInstance

instance blockBody : Alike a i j up.blockBody := by
  unfold Level.blockBody
  exact bind_prod inferInstance fun _ _ _ _ _ _ => inferInstance

instance spreadable : Alike a i j up.spreadable := by
  unfold Level.spreadable
  infer_instance

instance arguments : Alike a i j up.arguments := by
  unfold Level.arguments
  infer_instance

instance indexed [Pair a e e'] : Along a i j (up.indexed start e) (up.indexed start' e') := by
  unfold Level.indexed
  infer_instance

instance dotted? (optional : Bool) [Pair a e e'] :
    Along a i j (up.dotted? start optional e) (up.dotted? start' optional e') := by
  unfold Level.dotted?
  infer_instance

theorem some_or_none {x y : Option α} (h : Pair a x y) :
    (x = none ∧ y = none) ∨ ∃ x' y', x = some x' ∧ y = some y' ∧ Pair a x' y' := by
  cases h.rel with
  | none => exact .inl ⟨rfl, rfl⟩
  | some hx => exact .inr ⟨_, _, rfl, rfl, ⟨hx⟩⟩

instance typeArguments? : Alike a i j Level.typeArguments? := by
  unfold Level.typeArguments?
  refine read (h := get (h := fun n => ?_))
  rw [ht.matchingAngle]
  split <;> infer_instance

instance suffix? [Pair a e e'] : Along a i j (up.suffix? start e) (up.suffix? start' e') := by
  unfold Level.suffix?
  refine bind_intro inferInstance fun t t' h => ?_
  rw [h.rel.kind]
  split
  case h_5 =>
    refine bind_intro inferInstance fun typeArgs typeArgs' h => ?_
    obtain ⟨rfl, rfl⟩ | ⟨_, _, rfl, rfl, _⟩ := some_or_none h <;> infer_instance
  all_goals infer_instance

instance suffixes {fuel : Nat} [hfuel : Same a fuel fuel'] [h : Pair a e e'] :
    Along a i j (up.suffixes start fuel e) (up.suffixes start' fuel' e') := by
  obtain rfl : fuel = fuel' := hfuel.eq
  clear hfuel
  induction fuel generalizing e e' with
  | zero =>
    unfold Level.suffixes
    infer_instance
  | succ fuel ih =>
    unfold Level.suffixes
    refine bind_intro inferInstance fun longer longer' h => ?_
    obtain ⟨rfl, rfl⟩ | ⟨_, _, rfl, rfl, _⟩ := some_or_none h
    · infer_instance
    · exact ih

instance operand : Alike a i j up.operand := by
  unfold Level.operand
  infer_instance

instance decorators : Alike a i j up.decorators := by
  unfold Level.decorators
  infer_instance

instance propKey? : Alike a i j up.propKey? := by
  unfold Level.propKey?
  refine bind_intro inferInstance fun t t' h => ?_
  rw [h.rel.kind]
  split
  case h_4 hkind =>
    have : Same a t.text t'.text := ⟨h.rel.number hkind⟩
    infer_instance
  all_goals infer_instance

instance patType : Alike a i j Level.patType := by
  unfold Level.patType
  infer_instance

instance patWithDefault : Alike a i j up.patWithDefault := by
  unfold Level.patWithDefault
  infer_instance

theorem key_cases {k k' : PropKey} (h : Pair a k k') :
    (∃ i i', k = .ident i ∧ k' = .ident i' ∧ Pair a i.span i'.span) ∨
      (∀ i, k ≠ .ident i) ∧ ∀ i, k' ≠ .ident i := by
  obtain ⟨h⟩ := h
  cases k <;> cases k'
  case ident.ident i i' =>
    exact .inl ⟨i, i', rfl, rfl, ⟨congrArg Ident.span (PropKey.ident.inj h)⟩⟩
  case string.string | number.number | computed.computed => exact .inr ⟨nofun, nofun⟩
  all_goals nomatch h

instance patProp? : Alike a i j up.patProp? := by
  unfold Level.patProp?
  dsimp only
  refine bind_intro inferInstance fun start start' _ => bind_same inferInstance fun spread => ?_
  refine ite_intro inferInstance inferInstance (bind_intro inferInstance fun key? key?' hkey => ?_)
  obtain ⟨rfl, rfl⟩ | ⟨key, key', rfl, rfl, hk⟩ := some_or_none hkey
  · infer_instance
  · refine bind_same inferInstance fun colon => ite_intro inferInstance inferInstance ?_
    obtain ⟨name, name', rfl, rfl, _⟩ | ⟨hne, hne'⟩ := key_cases hk
    · infer_instance
    · split
      · exact absurd rfl (hne _)
      · infer_instance

instance objectPat : Along a i j (up.objectPat start) (up.objectPat start') := by
  unfold Level.objectPat
  infer_instance

instance elements {p q : Parse α} [Along a i j p q] :
    Along a i j (Level.elements p) (Level.elements q) := by
  unfold Level.elements
  infer_instance

instance arrayPat : Along a i j (up.arrayPat start) (up.arrayPat start') := by
  unfold Level.arrayPat
  infer_instance

instance pattern : Alike a i j up.pattern := by
  unfold Level.pattern
  refine bind_intro inferInstance fun t t' h => ?_
  rw [h.rel.kind]
  split <;> infer_instance

instance skipParamModifiers : Alike a i j Level.skipParamModifiers := by
  unfold Level.skipParamModifiers
  infer_instance

instance params : Alike a i j up.params := by
  unfold Level.params
  infer_instance

instance functionTail {i? i?' : Option Ident} [Pair a i? i?'] [hb : Same a b b'] :
    Along a i j (up.functionTail start i? b) (up.functionTail start' i?' b') := by
  obtain rfl : b = b' := hb.eq
  unfold Level.functionTail
  simp -zeta only [ite_bind_join, ite_bind_unit]
  dsimp only
  infer_instance

instance function : Alike a i j up.function := by
  unfold Level.function
  infer_instance

instance skipMemberModifiers : Alike a i j Level.skipMemberModifiers := by
  unfold Level.skipMemberModifiers
  infer_instance

instance classMember : Alike a i j up.classMember := by
  unfold Level.classMember
  simp -zeta only [ite_bind_join, ite_bind_unit]
  dsimp only
  infer_instance

instance classBody : Alike a i j up.classBody := by
  unfold Level.classBody
  infer_instance

instance : Paired Level.ClassParts :=
  ⟨fun a c c' => Paired.rel a c.span c'.span ∧ Paired.rel a c.ident c'.ident ∧
    Paired.rel a c.members c'.members⟩

instance classParts [hs : Pair a s s'] {i? i?' : Option Ident} [hi : Pair a i? i?']
    {es es' : List Expr} [hes : Pair a es es'] :
    Pair a (Level.ClassParts.mk s i? es) (Level.ClassParts.mk s' i?' es') := ⟨hs.rel, hi.rel, hes.rel⟩

section parts

variable {c c' : Level.ClassParts} [hc : Pair a c c']

instance partsSpan : Pair a c.span c'.span := ⟨hc.rel.1⟩

instance partsIdent : Pair a c.ident c'.ident := ⟨hc.rel.2.1⟩

instance partsMembers : Pair a c.members c'.members := ⟨hc.rel.2.2⟩

end parts

instance classDecl : Alike a i j up.classDecl := by
  unfold Level.classDecl
  simp -zeta only [ite_bind_join, ite_bind_unit]
  dsimp only
  infer_instance

instance skipUntil (kinds : List TokenKind) : Alike a i j (Tolerant.skipUntil kinds) := by
  unfold Tolerant.skipUntil
  infer_instance

instance lastFlag {bs bs' : List Bool} [hbs : Pair a bs bs'] :
    Same a (bs.getLast?.getD false) (bs'.getLast?.getD false) := by
  obtain rfl : bs = bs' := List.forall₂_eq_eq_eq ▸ hbs.rel
  exact .refl _

instance skipOpeningTag : Alike a i j Tolerant.skipOpeningTag := by
  unfold Tolerant.skipOpeningTag
  infer_instance

instance skipMarkup {fuel : Nat} [hfuel : Same a fuel fuel'] (depth : Nat) :
    Along a i j (Tolerant.skipMarkup fuel depth) (Tolerant.skipMarkup fuel' depth) := by
  obtain rfl : fuel = fuel' := hfuel.eq
  clear hfuel
  induction fuel generalizing depth with
  | zero =>
    unfold Tolerant.skipMarkup
    infer_instance
  | succ fuel ih =>
    unfold Tolerant.skipMarkup
    refine bind_intro inferInstance fun t t' h => ?_
    rw [h.rel.kind]
    split
    case h_2 =>
      -- The number of open tags is no offset, so it is carried into the branches that count it.
      simp only [pure_bind]
      infer_instance
    all_goals infer_instance

instance arrayLit : Alike a i j up.arrayLit := by
  unfold Level.arrayLit
  infer_instance

instance objectProp? : Alike a i j up.objectProp? := by
  unfold Level.objectProp?
  simp -zeta only [ite_bind_unit]
  dsimp only
  refine bind_intro inferInstance fun start start' _ => bind_same inferInstance fun spread => ?_
  refine ite_intro inferInstance inferInstance (bind_intro inferInstance fun t t' _ => ?_)
  refine bind_intro inferInstance fun next next' _ => bind_same inferInstance fun _ => ?_
  refine bind_same inferInstance fun _ => bind_intro inferInstance fun key? key?' hkey => ?_
  obtain ⟨rfl, rfl⟩ | ⟨key, key', rfl, rfl, hk⟩ := some_or_none hkey
  · infer_instance
  · refine bind_same inferInstance fun colon => ite_intro inferInstance inferInstance ?_
    refine bind_intro inferInstance fun u u' _ => ite_intro inferInstance inferInstance ?_
    obtain ⟨name, name', rfl, rfl, _⟩ | ⟨hne, hne'⟩ := key_cases hk
    · infer_instance
    · split
      · exact absurd rfl (hne _)
      · infer_instance

instance objectLit : Alike a i j up.objectLit := by
  unfold Level.objectLit
  infer_instance

omit [Paired α] [Paired β] ht [up.Along a i j] [Pair a start start'] in
theorem wordPrimary_of_not_mem (h : t.text ∉ ["function", "class", "true", "false", "null"]) :
    up.wordPrimary t = do
      let next ← Tolerant.ahead 1
      if t.text == "async" && next.isWord "function" && !next.newlineBefore then
        return .fn (← up.function)
      else if t.text == "new" && next.kind != .dot then
        Functor.discard Tolerant.bump
        let callee ← up.operand
        return .other (← Tolerant.spanFrom t.span.start) [callee]
      else
        Functor.discard Tolerant.bump
        return .ident t.ident := by
  simp only [List.mem_cons, List.not_mem_nil, or_false, not_or] at h
  unfold Level.wordPrimary
  congr 1
  funext next
  dsimp only
  split
  case h_6 => rfl
  all_goals simp_all

instance wordPrimary {t' : Token} [h : Pair a t t'] :
    Along a i j (up.wordPrimary t) (up.wordPrimary t') := by
  have hwords : PlainWords ["function", "class", "true", "false", "null"] := inferInstance
  obtain htext | ⟨hne, hne'⟩ := Same.text_cases hwords (inferInstance : Pair a t.text t'.text)
  · unfold Level.wordPrimary
    refine bind_intro inferInstance fun next next' _ => ?_
    dsimp only
    rw [htext]
    split <;> infer_instance
  · rw [wordPrimary_of_not_mem hne, wordPrimary_of_not_mem hne']
    infer_instance

instance hashIdent [hs : Pair a s s'] : Pair a (Ident.mk s (String.ofList (s.text i.source)))
      (Ident.mk s' (String.ofList (s'.text j.source))) where
  rel := by
    rw [ht.source]
    exact congrArg (fun s => Ident.mk s (String.ofList (s.text a.source))) hs.rel

instance primaryExpr : Alike a i j up.primaryExpr := by
  unfold Level.primaryExpr
  refine bind_intro inferInstance fun t t' h => ?_
  rw [h.rel.kind]
  split <;> infer_instance

instance unaryExpr : Alike a i j up.unaryExpr := by
  unfold Level.unaryExpr
  refine bind_intro inferInstance fun t t' h => ?_
  rw [h.rel.kind]
  split <;> infer_instance

instance binaryRest {fuel : Nat} [hfuel : Same a fuel fuel'] [h : Pair a e e'] :
    Along a i j (up.binaryRest start fuel e) (up.binaryRest start' fuel' e') := by
  obtain rfl : fuel = fuel' := hfuel.eq
  clear hfuel
  induction fuel generalizing e e' with
  | zero =>
    unfold Level.binaryRest
    infer_instance
  | succ fuel ih =>
    unfold Level.binaryRest
    infer_instance

instance binary : Alike a i j up.binary := by
  unfold Level.binary
  infer_instance

instance conditional : Alike a i j up.conditional := by
  unfold Level.conditional
  infer_instance

instance arrowParams : Alike a i j up.arrowParams := by
  unfold Level.arrowParams
  infer_instance

instance arrow [hb : Same a b b'] : Along a i j (up.arrow b) (up.arrow b') := by
  obtain rfl : b = b' := hb.eq
  unfold Level.arrow
  infer_instance

instance arrowAt (n : Nat) : Same a (i.arrowAt n) (j.arrowAt n) := ⟨ht.arrowAt n⟩

instance assignExpr : Alike a i j up.assignExpr := by
  unfold Level.assignExpr
  infer_instance

instance moduleName : Alike a i j Tolerant.moduleName := by
  unfold Tolerant.moduleName
  infer_instance

instance isAtTypeModifier : Alike a i j Tolerant.isAtTypeModifier := by
  unfold Tolerant.isAtTypeModifier
  infer_instance

instance specifierName? : Alike a i j Tolerant.specifierName? := by
  unfold Tolerant.specifierName?
  infer_instance

instance importSpecifier? : Alike a i j Tolerant.importSpecifier? := by
  unfold Tolerant.importSpecifier?
  refine bind_intro inferInstance fun start start' _ => bind_intro inferInstance fun name? name?' h => ?_
  obtain ⟨rfl, rfl⟩ | ⟨⟨typeOnly, t⟩, ⟨typeOnly', t'⟩, rfl, rfl, ⟨htype, ht⟩⟩ := some_or_none h
  · infer_instance
  · obtain rfl : typeOnly = typeOnly' := htype
    have : Pair a t t' := ⟨ht⟩
    infer_instance

instance exportSpecifier? : Alike a i j Tolerant.exportSpecifier? := by
  unfold Tolerant.exportSpecifier?
  refine bind_intro inferInstance fun start start' _ => bind_intro inferInstance fun name? name?' h => ?_
  obtain ⟨rfl, rfl⟩ | ⟨⟨typeOnly, t⟩, ⟨typeOnly', t'⟩, rfl, rfl, ⟨htype, ht⟩⟩ := some_or_none h
  · infer_instance
  · obtain rfl : typeOnly = typeOnly' := htype
    have : Pair a t t' := ⟨ht⟩
    infer_instance

instance specifiers {p q : Parse (Option α)} [Along a i j p q] :
    Along a i j (Tolerant.specifiers p) (Tolerant.specifiers q) := by
  unfold Tolerant.specifiers
  infer_instance

instance starSpecifier : Alike a i j Tolerant.starSpecifier := by
  unfold Tolerant.starSpecifier
  infer_instance

instance skipImportAttributes : Alike a i j Tolerant.skipImportAttributes := by
  unfold Tolerant.skipImportAttributes
  infer_instance

instance importStmt : Alike a i j Tolerant.importStmt := by
  unfold Tolerant.importStmt
  simp -zeta only [ite_bind_join, ite_bind_unit]
  dsimp only
  infer_instance

instance fromClause? : Alike a i j Tolerant.fromClause? := by
  unfold Tolerant.fromClause?
  infer_instance

instance exportStar [Same a b b'] :
    Along a i j (Tolerant.exportStar start b) (Tolerant.exportStar start' b') := by
  unfold Tolerant.exportStar
  dsimp only
  refine bind_same inferInstance fun _ => bind_same inferInstance fun named => ?_
  refine ite_intro inferInstance inferInstance (bind_intro inferInstance fun source source' h => ?_)
  obtain ⟨rfl, rfl⟩ | ⟨_, _, rfl, rfl, _⟩ := some_or_none h <;> infer_instance

instance enumStmt : Alike a i j Tolerant.enumStmt := by
  unfold Tolerant.enumStmt
  infer_instance

instance typeAlias : Alike a i j Tolerant.typeAlias := by
  unfold Tolerant.typeAlias
  infer_instance

instance interfaceStmt : Alike a i j Tolerant.interfaceStmt := by
  unfold Tolerant.interfaceStmt
  infer_instance

instance defaultExport : Alike a i j up.defaultExport := by
  unfold Level.defaultExport
  infer_instance

instance exportStmt : Alike a i j up.exportStmt := by
  unfold Level.exportStmt
  infer_instance

instance declarator : Alike a i j up.declarator := by
  unfold Level.declarator
  infer_instance

instance declarators {fuel : Nat} [hfuel : Same a fuel fuel'] :
    Along a i j (up.declarators fuel) (up.declarators fuel') := by
  obtain rfl : fuel = fuel' := hfuel.eq
  clear hfuel
  induction fuel with
  | zero =>
    unfold Level.declarators
    infer_instance
  | succ fuel ih =>
    unfold Level.declarators
    infer_instance

instance varStmt : Alike a i j up.varStmt := by
  unfold Level.varStmt
  dsimp only
  refine bind_intro inferInstance fun start start' _ => bind_same inferInstance fun _ => ?_
  refine bind_intro inferInstance fun t t' h => ?_
  have hwords : PlainWords ["const", "let", "var"] := inferInstance
  obtain htext | ⟨hne, hne'⟩ := Same.text_cases hwords (inferInstance : Pair a t.text t'.text)
  · rw [htext]
    infer_instance
  · simp only [List.mem_cons, List.not_mem_nil, or_false, not_or] at hne hne'
    split
    case h_4 =>
      split
      case h_4 => infer_instance
      all_goals simp_all
    all_goals simp_all

instance declared [hs : Pair a s s'] {x x' : Stmt} [hx : Pair a x x'] :
    Pair a (declared s x) (declared s' x') := by
  have hrelocate (m : Relocation) (s : Span) (x : Stmt) :
      (Tolerant.declared s x).relocate m = Tolerant.declared (m.span s) (x.relocate m) := by
    cases x with
    | fn f => cases f; rfl
    | _ => rfl
  have hvia (s : Span) (x : Stmt) :
      (Tolerant.declared s x).viaAscii a.source = Tolerant.declared s (x.viaAscii a.source) := by
    cases x with
    | fn f => cases f; rfl
    | _ => rfl
  have hx := hx.rel
  exact ⟨by simp only [Paired.rel] at hx ⊢; rw [hrelocate, hvia, hx, hs.span]⟩

instance declareStmt : Alike a i j up.declareStmt := by
  unfold Level.declareStmt
  infer_instance

instance namespaceStmt : Alike a i j up.namespaceStmt := by
  unfold Level.namespaceStmt
  infer_instance

instance ifStmt : Alike a i j up.ifStmt := by
  unfold Level.ifStmt
  infer_instance

instance returnStmt : Alike a i j up.returnStmt := by
  unfold Level.returnStmt
  infer_instance

instance headExprs : Alike a i j up.headExprs := by
  unfold Level.headExprs
  infer_instance

instance blocks : Alike a i j up.blocks := by
  unfold Level.blocks
  infer_instance

instance tryBlocks : Alike a i j up.tryBlocks := by
  unfold Level.tryBlocks
  infer_instance

instance keywordParts {s s' : String} [hs : Pair a s s'] :
    Along a i j (up.keywordParts s) (up.keywordParts s') := by
  have hwords : PlainWords ["for", "while", "with", "do", "try", "switch", "case", "default",
    "throw"] := inferInstance
  unfold Level.keywordParts
  obtain rfl | ⟨hne, hne'⟩ := Same.text_cases hwords hs
  · split <;> infer_instance
  · simp only [List.mem_cons, List.not_mem_nil, or_false, not_or] at hne hne'
    split
    case h_10 =>
      split
      case h_10 => infer_instance
      all_goals simp_all
    all_goals simp_all

instance keywordStmt : Alike a i j up.keywordStmt := by
  unfold Level.keywordStmt
  refine bind_intro inferInstance fun start start' _ => bind_intro inferInstance fun t t' _ => ?_
  exact bind_prod inferInstance fun _ _ _ _ _ _ => inferInstance

instance exprStmt : Alike a i j up.exprStmt := by
  unfold Level.exprStmt
  infer_instance

instance classStmt : Alike a i j up.classStmt := by
  unfold Level.classStmt
  infer_instance

instance wordStmt {t' : Token} [Pair a t t'] : Along a i j (up.wordStmt t) (up.wordStmt t') := by
  unfold Level.wordStmt
  infer_instance

def decorated (s : Span) : Stmt → Stmt
  | .classDecl _ ident members => .classDecl s ident members
  | stmt => stmt

instance decoratedMk [hs : Pair a s s'] {x x' : Stmt} [hx : Pair a x x'] :
    Pair a (decorated s x) (decorated s' x') := by
  have hrelocate (m : Relocation) (s : Span) (x : Stmt) :
      (decorated s x).relocate m = decorated (m.span s) (x.relocate m) := by
    cases x <;> rfl
  have hvia (s : Span) (x : Stmt) :
      (decorated s x).viaAscii a.source = decorated s (x.viaAscii a.source) := by
    cases x <;> rfl
  have hx := hx.rel
  exact ⟨by simp only [Paired.rel] at hx ⊢; rw [hrelocate, hvia, hx, hs.span]⟩

instance decoratedStmt : Alike a i j up.decoratedStmt := by
  have heq : up.decoratedStmt = do
      let start ← Tolerant.startOffset
      up.decorators
      let stmt ← up.stmt
      return decorated (← Tolerant.spanFrom start) stmt := by
    unfold Level.decoratedStmt
    congr! 7 with start _ stmt
    cases stmt <;> rfl
  rw [heq]
  infer_instance

instance statement : Alike a i j up.statement := by
  unfold Level.statement
  refine bind_intro inferInstance fun t t' h => ?_
  rw [h.rel.kind]
  split <;> infer_instance

end Along

namespace Level.Along

variable [Input.Twins a i j]

instance bottom : Level.bottom.Along a i j where
  stmt := by
    unfold Level.bottom
    infer_instance
  assign := by
    unfold Level.bottom
    infer_instance
  unary := by
    unfold Level.bottom
    infer_instance
  primary := by
    unfold Level.bottom
    infer_instance
  bindingPat := by
    unfold Level.bottom
    infer_instance

instance level (depth : Nat) : (level depth).Along a i j := by
  induction depth with
  | zero => exact bottom
  | succ depth ih =>
    exact ⟨.statement, .assignExpr, .unaryExpr, .primaryExpr, .pattern⟩

end Level.Along

instance Along.stmts [Input.Twins a i j] : Alike a i j stmts := by
  unfold Tolerant.stmts
  infer_instance

end SfcTsx.Script.Tolerant
