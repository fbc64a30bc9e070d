import SfcTsx.Proofs.Script.Progress

namespace SfcTsx.Script.Tolerant

variable {input : Input} {α γ : Type} {i : Nat} {stop : Parse Bool} {item : Parse (List α)}
  {f : γ → Parse (Option α)}

/-- The parser takes a token, if one is left, to find something. -/
class TakesSome (input : Input) {α : Type} (p : Parse (Option α)) : Prop where
  lt : ∀ i < input.last, (p input i).1.isSome = true → i < (p input i).2

namespace TakesSome

instance (priority := low) of_takes {p : Parse (Option α)} [hp : Takes input p] :
    TakesSome input p := ⟨fun i hi _ => hp.lt i hi⟩

instance none : TakesSome input (pure none : Parse (Option α)) where
  lt i hi h := by simp [pure_run] at h

theorem looks_bind_intro {p : Parse γ} (hp : Looks input p) (hf : ∀ a, TakesSome input (f a)) :
    TakesSome input (p >>= f) where
  lt i hi h := by
    rw [bind_run, hp.eq] at h ⊢
    exact (hf _).lt i hi h

instance looks_bind {p : Parse γ} [hp : Looks input p] [hf : ∀ a, TakesSome input (f a)] :
    TakesSome input (p >>= f) := looks_bind_intro hp hf

theorem some_bind {p : Parse (Option γ)} {f : Option γ → Parse (Option α)} (hp : TakesSome input p)
    (hfp : Forward input p) (hsome : ∀ a, Forward input (f (some a))) (hnone : f .none = pure .none) :
    TakesSome input (p >>= f) where
  lt i hi h := by
    rw [bind_run] at h ⊢
    cases hfound : (p input i).1 with
    | none => simp [hfound, hnone, pure_run] at h
    | some a =>
      have hlt := hp.lt i hi (by simp [hfound])
      exact Nat.lt_of_lt_of_le hlt ((hsome a).le _ (hfp.le_last i (Nat.le_of_lt hi)))

instance ite {c : Prop} [Decidable c] {p q : Parse (Option α)} [hp : TakesSome input p]
    [hq : TakesSome input q] : TakesSome input (if c then p else q) := by
  split
  · exact hp
  · exact hq

end TakesSome

/-- The parsers give the same behind a token. -/
class AgreeAfter (input : Input) (i : Nat) {α : Type} (p q : Parse α) : Prop where
  eq : ∀ j, i < j → j ≤ input.last → p input j = q input j

def AgreeAt (input : Input) (i : Nat) {α : Type} (p q : Parse α) : Prop := p input i = q input i

namespace AgreeAfter

instance refl (i : Nat) (p : Parse α) : AgreeAfter input i p p := ⟨fun _ _ _ => rfl⟩

instance bind {r : Parse γ} {f g : γ → Parse α} [hr : Forward input r]
    [h : ∀ a, AgreeAfter input i (f a) (g a)] : AgreeAfter input i (r >>= f) (r >>= g) where
  eq j hij hj := (h _).eq _ (Nat.lt_of_lt_of_le hij (hr.le j hj)) (hr.le_last j hj)

instance bind_first {r r' : Parse γ} {f : γ → Parse α} [h : AgreeAfter input i r r'] :
    AgreeAfter input i (r >>= f) (r' >>= f) where
  eq j hij hj := by rw [bind_run, bind_run, h.eq j hij hj]

instance ite {c : Prop} [Decidable c] {p q p' q' : Parse α} [hp : AgreeAfter input i p p']
    [hq : AgreeAfter input i q q'] :
    AgreeAfter input i (if c then p else q) (if c then p' else q') := by
  split
  · exact hp
  · exact hq

end AgreeAfter

theorem agreeAt_bind (hi : i < input.last) {r : Parse γ} {f g : γ → Parse α} [hr : Takes input r]
    [hfr : Forward input r] [h : ∀ a, AgreeAfter input i (f a) (g a)] :
    AgreeAt input i (r >>= f) (r >>= g) :=
  (h _).eq _ (hr.lt i hi) (hfr.le_last i (Nat.le_of_lt hi))

/-- As many rounds as there are tokens left are enough: more of them change nothing. -/
def Sated (input : Input) (q : Nat → Nat → γ) : Prop :=
  ∀ i ≤ input.last, ∀ fuel ≥ input.tokens.size - i, q fuel i = q (input.tokens.size - i) i

variable [input.Lined]

theorem sated_of_step {ι : Type} (q : ι → Nat → Nat → γ)
    (hstep : ∀ x m n i, i ≤ input.last →
      (∀ y j, i < j → j ≤ input.last → q y m j = q y n j) → q x (m + 1) i = q x (n + 1) i)
    (x : ι) : Sated input (q x) := by
  have hall : ∀ k x i m n, i ≤ input.last → input.last - i < k → input.tokens.size - i ≤ m →
      input.tokens.size - i ≤ n → q x m i = q x n i := by
    intro k
    induction k with
    | zero =>
      intro x i m n _ hk
      omega
    | succ k ih =>
      intro x i m n hi hk hm hn
      rw [Input.size_eq] at hm hn
      obtain ⟨m, rfl⟩ : ∃ m', m = m' + 1 := ⟨m - 1, by omega⟩
      obtain ⟨n, rfl⟩ : ∃ n', n = n' + 1 := ⟨n - 1, by omega⟩
      refine hstep x m n i hi fun y j hij hj => ih y j m n hj (by omega) ?_ ?_
      · rw [Input.size_eq]
        omega
      · rw [Input.size_eq]
        omega
  intro i hi fuel hfuel
  exact hall _ x i _ _ hi (Nat.lt_succ_self _) hfuel (Nat.le_refl _)

namespace Input

theorem sated_of_next {ι : Type} (q : ι → Nat → Nat → γ)
    (hend : ∀ x m n i, (input.tokenAt i).kind = .endOfText → q x (m + 1) i = q x (n + 1) i)
    (hnext : ∀ x m n i, (∀ y, q y m (i + 1) = q y n (i + 1)) → q x (m + 1) i = q x (n + 1) i) (x : ι) :
    Sated input (q x) := by
  refine sated_of_step q (fun x m n i hi ih => ?_) x
  by_cases hkind : (input.tokenAt i).kind = .endOfText
  · exact hend x m n i hkind
  · exact hnext x m n i fun y => ih y (i + 1) (Nat.lt_succ_self i) (lt_last hi hkind)

theorem matchingFrom_sated (depth : Nat) :
    Sated input fun fuel i => input.matchingFrom fuel depth i := by
  refine sated_of_next (fun depth fuel i => input.matchingFrom fuel depth i) ?_ ?_ depth
  · intro depth m n i hend
    simp [matchingFrom, hend, Token.isOpener, Token.isCloser]
  · intro depth m n i hnext
    simp only [matchingFrom, hnext]

theorem matchingAngleFrom_sated (typeLike : Bool) (angles nest : Nat) :
    Sated input fun fuel i => input.matchingAngleFrom typeLike fuel angles nest i := by
  refine sated_of_next (fun (x : Nat × Nat) fuel i => input.matchingAngleFrom typeLike fuel x.1 x.2 i)
    ?_ ?_ (angles, nest)
  · intro x m n i hend
    simp [matchingAngleFrom, hend, Token.isOpener, Token.isCloser]
  · intro x m n i hnext
    simp only [Prod.forall] at hnext
    simp only [matchingAngleFrom, hnext]

theorem typeEndFrom_sated (stops : List TokenKind) (first nest angles : Nat) :
    Sated input fun fuel i => input.typeEndFrom stops first fuel nest angles i := by
  refine sated_of_next (fun (x : Nat × Nat) fuel i => input.typeEndFrom stops first fuel x.1 x.2 i)
    ?_ ?_ (nest, angles)
  · intro x m n i hend
    simp [typeEndFrom, hend]
  · intro x m n i hnext
    simp only [Prod.forall] at hnext
    simp only [typeEndFrom, hnext]

theorem stmtEndFrom_sated (first depth : Nat) :
    Sated input fun fuel i => input.stmtEndFrom first fuel depth i := by
  refine sated_of_next (fun depth fuel i => input.stmtEndFrom first fuel depth i) ?_ ?_ depth
  · intro depth m n i hend
    simp [stmtEndFrom, hend]
  · intro depth m n i hnext
    simp only [stmtEndFrom, hnext]

theorem arrowAfterType_sated (nest : Nat) :
    Sated input fun fuel i => input.arrowAfterType fuel nest i := by
  refine sated_of_next (fun nest fuel i => input.arrowAfterType fuel nest i) ?_ ?_ nest
  · intro nest m n i hend
    simp [arrowAfterType, hend, Token.isOpener, Token.isCloser]
  · intro nest m n i hnext
    simp only [arrowAfterType, hnext]

end Input

variable {up : Level}

theorem suffix?_last (start : Nat) (operand : Expr) :
    (up.suffix? start operand input input.last).1 = none := by
  simp only [Level.suffix?, bind_run, peek_run, Input.kind_last, pure_run]

variable [up.Keeps input]

instance Takes.arguments : Takes input up.arguments := by
  unfold Level.arguments
  infer_instance

instance Takes.indexed (start : Nat) (object : Expr) : Takes input (up.indexed start object) := by
  unfold Level.indexed
  infer_instance

namespace TakesSome

instance typeArguments? : TakesSome input Level.typeArguments? where
  lt i hi h := by
    simp only [Level.typeArguments?, bind_run, read_run, get_run] at h ⊢
    cases hmatch : input.matchingAngle i true with
    | none => simp [hmatch, pure_run] at h
    | some close =>
      have := Input.matchingAngle_bounds (Nat.le_of_lt hi) hmatch
      simp only [hmatch] at h
      by_cases hcall : (input.tokenAt (close + 1)).kind = .openParen
      · simp only [if_pos hcall, bind_run, set_run, pure_run]
        omega
      · simp [if_neg hcall, pure_run] at h

instance suffix? (start : Nat) (operand : Expr) : TakesSome input (up.suffix? start operand) := by
  unfold Level.suffix?
  refine looks_bind_intro inferInstance fun token => ?_
  split
  case h_5 =>
    refine some_bind inferInstance inferInstance (fun typeArgs => ?_) rfl
    dsimp only
    infer_instance
  all_goals infer_instance

end TakesSome

theorem suffixes_sated (start : Nat) (operand : Expr) :
    Sated input fun fuel i => up.suffixes start fuel operand input i := by
  refine sated_of_step (fun operand fuel i => up.suffixes start fuel operand input i) ?_ operand
  intro operand m n i hi ih
  have hsuffix : Forward input (up.suffix? start operand) := inferInstance
  simp only [Level.suffixes, bind_run]
  cases hfound : (up.suffix? start operand input i).1 with
  | none => rfl
  | some longer =>
    have hlt : i < input.last := by
      refine Nat.lt_of_le_of_ne hi fun heq => ?_
      rw [heq, suffix?_last] at hfound
      cases hfound
    refine ih longer _ ?_ (hsuffix.le_last i hi)
    exact TakesSome.lt i hlt (by simp [hfound])

theorem binaryRest_sated (start : Nat) (left : Expr) :
    Sated input fun fuel i => up.binaryRest start fuel left input i := by
  refine sated_of_step (fun left fuel i => up.binaryRest start fuel left input i) ?_ left
  intro left m n i hi ih
  have hrest (e : Expr) : AgreeAfter input i (up.binaryRest start m e) (up.binaryRest start n e) := ⟨ih e⟩
  unfold Level.binaryRest
  simp only [bind_run, peek_run]
  by_cases hend : (input.tokenAt i).kind = .endOfText
  · simp [hend, Level.isBinaryOperator, Token.isWord]
  have hlt := Input.lt_last hi hend
  change AgreeAt input i _ _
  split
  · exact agreeAt_bind hlt
  split
  · exact agreeAt_bind hlt
  · rfl

theorem declarators_sated : Sated input fun fuel i => up.declarators fuel input i := by
  refine sated_of_step (fun (_ : Unit) fuel i => up.declarators fuel input i) ?_ ()
  intro _ m n i hi ih
  have hdecl : Forward input up.declarator := inferInstance
  have hrest : AgreeAfter input i (up.declarators m) (up.declarators n) := ⟨ih ()⟩
  simp only [Level.declarators, bind_run, get_run]
  -- The list goes on only if its first item took a token.
  by_cases hsame : (up.declarator input i).2 = i
  · rw [if_pos hsame, if_pos hsame]
  · rw [if_neg hsame, if_neg hsame]
    have hlt := Nat.lt_of_le_of_ne (hdecl.le i hi) (Ne.symm hsame)
    exact AgreeAfter.eq (i := i) _ hlt (hdecl.le_last i hi)

set_option synthInstance.maxSize 256 in
theorem skipMarkup_sated (depth : Nat) : Sated input fun fuel i => skipMarkup fuel depth input i := by
  refine sated_of_step (fun depth fuel i => skipMarkup fuel depth input i) ?_ depth
  intro depth m n i hi ih
  have hrest (d : Nat) : AgreeAfter input i (skipMarkup m d) (skipMarkup n d) := ⟨ih d⟩
  unfold skipMarkup
  simp only [bind_run, peek_run]
  change AgreeAt input i _ _
  split
  case h_1 => rfl
  case h_2 hkind => exact agreeAt_bind (Input.lt_last_of_kind hi hkind (by decide))
  case h_3 hkind => exact agreeAt_bind (Input.lt_last_of_kind hi hkind (by decide))
  case h_4 hend _ _ => exact agreeAt_bind (Input.lt_last hi hend)

/-- Where the loop goes on, a round takes a token. -/
structure Advances (input : Input) (stop : Parse Bool) (item : Parse (List α)) : Prop where
  looks : Looks input stop
  forward : Forward input item
  lt : ∀ i ≤ input.last, (stop input i).1 = false → i < (item input i).2

theorem Advances.sated (h : Advances input stop item) :
    Sated input fun fuel i => repeatFor stop item fuel input i := by
  refine sated_of_step (fun (_ : Unit) fuel i => repeatFor stop item fuel input i) ?_ ()
  intro _ m n i hi ih
  simp only [repeatFor, bind_run, h.looks.eq]
  cases hstop : (stop input i).1 with
  | true => rfl
  | false =>
    have heq := ih () _ (h.lt i hi hstop) (h.forward.le_last i hi)
    simp only [Bool.false_eq_true, if_false, bind_run, heq]

omit [input.Lined] in
theorem Advances.stop_repeatFor (h : Advances input stop item) {fuel : Nat} (hi : i ≤ input.last)
    (hfuel : input.last - i < fuel) :
    (stop input (repeatFor stop item fuel input i).2).1 = true := by
  induction fuel generalizing i with
  | zero => omega
  | succ fuel ih =>
    simp only [repeatFor, bind_run, h.looks.eq]
    cases hstop : (stop input i).1 with
    | true => exact hstop
    | false =>
      have hlt := h.lt i hi hstop
      have hlast := h.forward.le_last i hi
      exact ih hlast (by omega)

theorem Advances.of_takesWhen (c : Token → Prop) [hlooks : Looks input stop]
    [hforward : Forward input item] [htakes : TakesWhen input c item]
    (hgo : ∀ i ≤ input.last, (stop input i).1 = false →
      (input.tokenAt i).kind ≠ .endOfText ∧ c (input.tokenAt i)) : Advances input stop item where
  looks := hlooks
  forward := hforward
  lt i hi hstop := by
    obtain ⟨hend, hc⟩ := hgo i hi hstop
    exact htakes.lt i (Input.lt_last hi hend) hc

theorem Advances.of_takes [Looks input stop] [Forward input item] [Takes input item]
    (hlast : (stop input input.last).1 = true) : Advances input stop item := by
  refine .of_takesWhen (fun _ => True) fun i hi hgo => ⟨fun hend => ?_, trivial⟩
  rw [(Input.Lined.kind_iff i hi).mp hend, hlast] at hgo
  cases hgo

instance Takes.eat_bind {kind : TokenKind} {p q : Parse α} [hp : Forward input p] [Forward input q]
    [hq : Takes input q] : Takes input (do if ← eat kind then p else q) where
  lt i hi := by
    by_cases hkind : (input.tokenAt i).kind = kind
    · have heat : eat kind input i = (true, i + 1) := by
        simp only [eat, bind_run, isAt_run, hkind, beq_self_eq_true, if_true, discard_run,
          bump_snd_of_lt hi, pure_run]
      rw [bind_run, heat]
      exact hp.le _ hi
    · have heat : eat kind input i = (false, i) := by
        simp only [eat, bind_run, isAt_run, beq_eq_false_iff_ne.mpr hkind, Bool.false_eq_true, if_false,
          pure_run]
      rw [bind_run, heat]
      exact hq.lt i hi

theorem isAtCloser_last : (isAtCloser input input.last).1 = true := by
  simp [isAtCloser, bind_run, peek_run, pure_run, Input.kind_last]

/-- The loops of the productions, each by what ends it and what a round does. -/
inductive Loop (input : Input) (up : Level) : {α : Type} → Parse Bool → Parse (List α) → Prop
  | listed {α : Type} {item : Parse (List α)} (h : Forward input item) :
      Loop input up isAtCloser (advancing do
        let result ← item
        accept .comma
        return result)
  | elements {α : Type} {item : Parse α} (h : Forward input item) :
      Loop input up isAtCloser do
        if ← eat .comma then return [none]
        advancing do
          let elem ← item
          accept .comma
          return [some elem]
  | sequence :
      Loop input up (do return (← peek).kind ≠ .comma) do
        accept .comma
        if ← isAtCloser then return []
        return [← up.assign]
  | braced :
      Loop input up (do return (← isAt .closeBrace) || (← isAt .endOfText)) do
        return [← up.stmt]
  | stmts : Loop input up (isAt .endOfText) do return [← up.stmt]
  | decorators :
      Loop input up (do return (← peek).kind ≠ .at) do
        accept .at
        discard up.operand
        return ([] : List Unit)
  | paramModifiers :
      Loop input up (do
        let next := (← ahead 1).kind
        return !(["public", "private", "protected", "readonly", "override"].contains (← peek).text &&
          (next == .word || next == .openBrace || next == .openBracket))) do
        discard bump
        return ([] : List Unit)
  | memberModifiers :
      Loop input up (do
        let token ← peek
        return !(token.kind == .word &&
          ["static", "public", "private", "protected", "readonly", "abstract", "override", "declare",
            "async", "get", "set", "accessor"].contains token.text &&
          Level.startsMemberKey (← ahead 1))) do
        return [(← bump).text]
  | classBody : Loop input up isAtCloser (advancing up.classMember)
  | headExprs :
      Loop input up isAtCloser do
        let token ← peek
        if ["const", "let", "var", "using"].contains token.text || token.kind = .semicolon ||
            token.kind = .comma then
          discard bump
          return []
        advancing do return [← up.assign]
  | namespaceHead :
      Loop input up (do return (← isAt .openBrace) || (← isAtStmtEnd)) do
        discard bump
        return ([] : List Unit)
  | closingTag :
      Loop input up (do return [TokenKind.greater, .endOfText].contains (← peek).kind) do
        discard bump
        return ([] : List Unit)
  | openingTag :
      Loop input up (do return (← isAt .greater) || (← isAt .endOfText)) do
        if ← isAt .openBrace then
          skipBalanced
          return []
        return [(← bump).kind == .slash]

theorem Loop.advances [up.Takes input] (h : Loop input up stop item) :
    Advances input stop item := by
  cases h with
  | listed h => exact .of_takes isAtCloser_last
  | elements h => exact .of_takes isAtCloser_last
  | sequence =>
    refine .of_takesWhen (·.kind = .comma) fun i _ hgo => ?_
    simp only [bind_run, peek_run, pure_run, decide_eq_false_iff_not, ne_eq, Decidable.not_not] at hgo
    simp [hgo]
  | braced =>
    refine .of_takes ?_
    simp only [bind_run, isAt_run, pure_run, Input.kind_last]
    rfl
  | stmts => exact .of_takes (by simp [isAt_run, Input.kind_last])
  | decorators =>
    refine .of_takesWhen (·.kind = .at) fun i _ hgo => ?_
    simp only [bind_run, peek_run, pure_run, decide_eq_false_iff_not, ne_eq, Decidable.not_not] at hgo
    simp [hgo]
  | paramModifiers =>
    refine .of_takes ?_
    -- Behind the end of the text no parameter is declared.
    have hnext : (input.tokenAt (input.last + 1)).kind = .endOfText := by
      rw [Input.tokenAt_of_le (Nat.le_succ _), Input.kind_last]
    simp only [bind_run, ahead_run, peek_run, pure_run, hnext]
    simp
  | memberModifiers =>
    refine .of_takes ?_
    simp only [bind_run, peek_run, pure_run, Input.kind_last]
    rfl
  | classBody => exact .of_takes isAtCloser_last
  | headExprs => exact .of_takes isAtCloser_last
  | namespaceHead =>
    refine .of_takes ?_
    simp only [isAtStmtEnd, bind_run, isAt_run, peek_run, pure_run, Input.kind_last]
    rfl
  | closingTag =>
    refine .of_takes ?_
    simp only [bind_run, peek_run, pure_run, Input.kind_last]
    rfl
  | openingTag =>
    refine .of_takes ?_
    simp only [bind_run, isAt_run, pure_run, Input.kind_last]
    rfl

end SfcTsx.Script.Tolerant
