import SfcTsx.Proofs.Script.Tokens

namespace SfcTsx.Script.Tolerant

variable {i fuel : Nat}

variable {input : Input} {α β : Type} {p : Parse α} {f : α → Parse β} {c : Prop}
  {item : Parse (List α)} {stops : List TokenKind}

theorem bind_run (p : Parse α) (f : α → Parse β) (i : Nat) :
    (p >>= f) input i = f (p input i).1 input (p input i).2 := (rfl)

theorem pure_run (a : α) (i : Nat) : (pure a : Parse α) input i = (a, i) := (rfl)

theorem discard_run (p : Parse α) (i : Nat) : discard p input i = ((), (p input i).2) := (rfl)

theorem read_run (i : Nat) : (read : Parse Input) input i = (input, i) := (rfl)

theorem get_run (i : Nat) : (get : Parse Nat) input i = (i, i) := (rfl)

theorem set_run (i j : Nat) : (set j : Parse PUnit) input i = ((), j) := (rfl)

theorem modify_run (f : Nat → Nat) (i : Nat) : (modify f : Parse PUnit) input i = ((), f i) := (rfl)

theorem peek_run (i : Nat) : peek input i = (input.tokenAt i, i) := (rfl)

theorem ahead_run (n i : Nat) : ahead n input i = (input.tokenAt (i + n), i) := (rfl)

theorem isAt_run (kind : TokenKind) (i : Nat) :
    isAt kind input i = ((input.tokenAt i).kind == kind, i) := (rfl)

theorem startOffset_run (i : Nat) : startOffset input i = ((input.tokenAt i).span.start, i) := (rfl)

theorem spanFrom_run (start i : Nat) :
    spanFrom start input i = (⟨start, max (input.endBefore i) start⟩, i) := (rfl)

theorem bump_run (i : Nat) :
    bump input i = (input.tokenAt i, if (input.tokenAt i).kind = .endOfText then i else i + 1) := by
  simp only [bump, bind_run, peek_run]
  by_cases h : (input.tokenAt i).kind = .endOfText
  · rw [if_pos h, if_pos h, pure_run]
  · rw [if_neg h, if_neg h, bind_run, modify_run, pure_run]

theorem ite_bind_join [Decidable c] (p q : Parse α) (k : α → Parse β) :
    (if c then p >>= k else q >>= k) = (if c then p else q) >>= k := by
  split <;> rfl

theorem ite_bind_unit [Decidable c] (p : Parse PUnit) (k : PUnit → Parse β) :
    (if c then p >>= k else k ()) = (if c then p else pure ()) >>= k := by
  split <;> rfl

/-- The parser leaves the cursor where it is. -/
class Looks (input : Input) (p : Parse α) : Prop where
  eq : ∀ i, (p input i).2 = i

/-- The parser moves the cursor neither back nor past the end of the text. -/
class Forward (input : Input) (p : Parse α) : Prop where
  le : ∀ i ≤ input.last, i ≤ (p input i).2
  le_last : ∀ i ≤ input.last, (p input i).2 ≤ input.last

/-- The parser takes a token wherever one is left. -/
class Takes (input : Input) (p : Parse α) : Prop where
  lt : ∀ i < input.last, i < (p input i).2

namespace Looks

instance pure (a : α) : Looks input (pure a : Parse α) := ⟨fun _ => rfl⟩

instance read : Looks input (read : Parse Input) := ⟨fun _ => rfl⟩

instance get : Looks input (get : Parse Nat) := ⟨fun _ => rfl⟩

instance bind [hp : Looks input p] [hf : ∀ a, Looks input (f a)] : Looks input (p >>= f) where
  eq i := ((hf _).eq _).trans (hp.eq i)

instance peek : Looks input peek := by
  unfold Tolerant.peek
  infer_instance

instance ahead (n : Nat) : Looks input (ahead n) := by
  unfold Tolerant.ahead
  infer_instance

instance isAt (kind : TokenKind) : Looks input (isAt kind) := by
  unfold Tolerant.isAt
  infer_instance

instance isAtWord (word : String) : Looks input (isAtWord word) := by
  unfold Tolerant.isAtWord
  infer_instance

instance startOffset : Looks input startOffset := by
  unfold Tolerant.startOffset
  infer_instance

instance endOffset : Looks input endOffset := by
  unfold Tolerant.endOffset
  infer_instance

instance spanFrom (start : Nat) : Looks input (spanFrom start) := by
  unfold Tolerant.spanFrom
  infer_instance

instance isAtCloser : Looks input isAtCloser := by
  unfold Tolerant.isAtCloser
  infer_instance

instance isAtStmtEnd : Looks input isAtStmtEnd := by
  unfold Tolerant.isAtStmtEnd
  infer_instance

end Looks

namespace Forward

instance (priority := low) of_looks [hp : Looks input p] : Forward input p where
  le i _ := Nat.le_of_eq (hp.eq i).symm
  le_last i hi := Nat.le_trans (Nat.le_of_eq (hp.eq i)) hi

theorem bind_intro (hp : Forward input p) (hf : ∀ a, Forward input (f a)) :
    Forward input (p >>= f) where
  le i hi := Nat.le_trans (hp.le i hi) ((hf _).le _ (hp.le_last i hi))
  le_last i hi := (hf _).le_last _ (hp.le_last i hi)

instance bind [hp : Forward input p] [hf : ∀ a, Forward input (f a)] :
    Forward input (p >>= f) := bind_intro hp hf

instance map (f : α → β) [hp : Forward input p] : Forward input (f <$> p) where
  le := hp.le
  le_last := hp.le_last

instance discard [hp : Forward input p] : Forward input (discard p) where
  le := hp.le
  le_last := hp.le_last

theorem ite_intro [Decidable c] {q : Parse α} (hp : Forward input p) (hq : Forward input q) :
    Forward input (if c then p else q) := by
  split
  · exact hp
  · exact hq

instance ite [Decidable c] {q : Parse α} [hp : Forward input p] [hq : Forward input q] :
    Forward input (if c then p else q) := ite_intro hp hq

end Forward

namespace Takes

theorem bind_left_intro (hp : Takes input p) (hfp : Forward input p) (hf : ∀ a, Forward input (f a)) :
    Takes input (p >>= f) where
  lt i hi := Nat.lt_of_lt_of_le (hp.lt i hi) ((hf _).le _ (hfp.le_last i (Nat.le_of_lt hi)))

instance bind_left [hp : Takes input p] [hfp : Forward input p] [hf : ∀ a, Forward input (f a)] :
    Takes input (p >>= f) := bind_left_intro hp hfp hf

theorem bind_right_intro (hp : Forward input p) (hf : ∀ a, Takes input (f a))
    (hff : ∀ a, Forward input (f a)) : Takes input (p >>= f) where
  lt i hi := by
    have hle := hp.le i (Nat.le_of_lt hi)
    have hlast := hp.le_last i (Nat.le_of_lt hi)
    -- Either the first parser takes a token itself, or one is left for the second.
    by_cases hmore : (p input i).2 < input.last
    · exact Nat.lt_of_le_of_lt hle ((hf _).lt _ hmore)
    · exact Nat.lt_of_lt_of_le (by omega) ((hff _).le _ hlast)

instance bind_right [hp : Forward input p] [hf : ∀ a, Takes input (f a)]
    [hff : ∀ a, Forward input (f a)] : Takes input (p >>= f) :=
  bind_right_intro hp hf hff

theorem looks_bind (hp : Looks input p) (hf : ∀ a, Takes input (f a)) : Takes input (p >>= f) where
  lt i hi := by
    rw [bind_run, hp.eq]
    exact (hf _).lt i hi

instance discard [hp : Takes input p] : Takes input (discard p) where
  lt := hp.lt

instance ite [Decidable c] {q : Parse α} [hp : Takes input p] [hq : Takes input q] :
    Takes input (if c then p else q) := by
  split
  · exact hp
  · exact hq

end Takes

namespace Input

theorem tokenAt_of_le (h : input.last ≤ i) : input.tokenAt i = input.tokenAt input.last := by
  simp only [tokenAt, Nat.min_eq_right h, Nat.min_self]

variable [hl : input.Lined]

theorem kind_last : (input.tokenAt input.last).kind = .endOfText :=
  (hl.kind_iff _ (Nat.le_refl _)).mpr rfl

theorem lt_last (hi : i ≤ input.last) (h : (input.tokenAt i).kind ≠ .endOfText) :
    i < input.last := by
  have hne : i ≠ input.last := fun he => h ((hl.kind_iff i hi).mpr he)
  omega

theorem kind_ne (hi : i < input.last) : (input.tokenAt i).kind ≠ .endOfText := by
  intro h
  have := (hl.kind_iff i (Nat.le_of_lt hi)).mp h
  omega

theorem size_eq : input.tokens.size = input.last + 1 := by
  have hne : input.tokens.size ≠ 0 := by
    intro hzero
    have h : (input.tokenAt input.last).kind = .endOfText := kind_last
    simp [tokenAt, hzero, Array.getD] at h
    exact absurd h (by decide)
  simp only [last]
  omega

omit hl in
theorem lt_last_of_kind [input.Lined] {kind : TokenKind} (hi : i ≤ input.last)
    (h : (input.tokenAt i).kind = kind) (hne : kind ≠ .endOfText) : i < input.last :=
  lt_last hi (h ▸ hne)

section
variable {i j : Nat} (hi : i ≤ input.last)
include hi

theorem matchingFrom_bounds {depth : Nat} (h : input.matchingFrom fuel depth i = some j) :
    i ≤ j ∧ j < input.last := by
  induction fuel generalizing depth i with
  | zero => simp [matchingFrom] at h
  | succ fuel ih =>
    have hlt : i < input.last := by
      refine lt_last hi fun hend => ?_
      simp [matchingFrom, hend, Token.isOpener, Token.isCloser] at h
    have hstep {d : Nat} (h : input.matchingFrom fuel d (i + 1) = some j) : i ≤ j ∧ j < input.last := by
      have := ih hlt h
      omega
    -- Every branch gives nothing, this index or what the next round gives.
    unfold matchingFrom at h
    grind

theorem matching_bounds (h : input.matching i = some j) : i ≤ j ∧ j < input.last :=
  matchingFrom_bounds hi h

theorem matchingAngleFrom_bounds {typeLike : Bool} {angles nest : Nat}
    (h : input.matchingAngleFrom typeLike fuel angles nest i = some j) : i ≤ j ∧ j < input.last := by
  induction fuel generalizing angles nest i with
  | zero => simp [matchingAngleFrom] at h
  | succ fuel ih =>
    have hlt : i < input.last := by
      refine lt_last hi fun hend => ?_
      simp [matchingAngleFrom, hend, Token.isOpener, Token.isCloser] at h
    have hstep {a n : Nat} (h : input.matchingAngleFrom typeLike fuel a n (i + 1) = some j) :
        i ≤ j ∧ j < input.last := by
      have := ih hlt h
      omega
    unfold matchingAngleFrom at h
    grind

theorem matchingAngle_bounds {typeLike : Bool} (h : input.matchingAngle i typeLike = some j) :
    i ≤ j ∧ j < input.last :=
  matchingAngleFrom_bounds hi h

theorem typeEndFrom_bounds {first nest angles : Nat} :
    i ≤ input.typeEndFrom stops first fuel nest angles i ∧
      input.typeEndFrom stops first fuel nest angles i ≤ input.last := by
  induction fuel generalizing nest angles i with
  | zero => exact ⟨Nat.le_refl _, hi⟩
  | succ fuel ih =>
    rw [typeEndFrom]
    split
    · exact ⟨Nat.le_refl _, hi⟩
    next hend =>
      have hstep (n a : Nat) : i ≤ input.typeEndFrom stops first fuel n a (i + 1) ∧
          input.typeEndFrom stops first fuel n a (i + 1) ≤ input.last := by
        have := @ih (i + 1) (lt_last hi hend) n a
        omega
      split
      · exact ⟨Nat.le_refl _, hi⟩
      repeat' split
      all_goals apply hstep

theorem typeEnd_bounds : i ≤ input.typeEnd stops i ∧ input.typeEnd stops i ≤ input.last :=
  typeEndFrom_bounds hi

theorem stmtEndFrom_bounds {first depth : Nat} : i ≤ input.stmtEndFrom first fuel depth i ∧
      input.stmtEndFrom first fuel depth i ≤ input.last := by
  induction fuel generalizing depth i with
  | zero => exact ⟨Nat.le_refl _, hi⟩
  | succ fuel ih =>
    rw [stmtEndFrom]
    split
    · exact ⟨Nat.le_refl _, hi⟩
    next hend =>
      have hlt := lt_last hi hend
      have hstep (d : Nat) : i ≤ input.stmtEndFrom first fuel d (i + 1) ∧
          input.stmtEndFrom first fuel d (i + 1) ≤ input.last := by
        have := @ih (i + 1) hlt d
        omega
      split
      · exact ⟨Nat.le_succ _, hlt⟩
      split
      · exact ⟨Nat.le_refl _, hi⟩
      split
      · exact ⟨Nat.le_refl _, hi⟩
      repeat' split
      all_goals apply hstep

theorem stmtEnd_bounds : i ≤ input.stmtEnd i ∧ input.stmtEnd i ≤ input.last :=
  stmtEndFrom_bounds hi

end

end Input

section lined
variable [input.Lined]

theorem bump_snd_of_lt (hi : i < input.last) : (bump input i).2 = i + 1 := by
  rw [bump_run, if_neg (Input.kind_ne hi)]

instance Forward.bump : Forward input bump where
  le i _ := by
    rw [bump_run]
    dsimp only
    split <;> omega
  le_last i hi := by
    rw [bump_run]
    dsimp only
    split
    · exact hi
    next hend => exact Input.lt_last hi hend

instance Takes.bump : Takes input bump where
  lt i hi := by
    rw [bump_snd_of_lt hi]
    exact Nat.lt_succ_self i

instance Forward.eat (kind : TokenKind) : Forward input (eat kind) := by
  unfold Tolerant.eat
  infer_instance

instance Forward.eatWord (word : String) : Forward input (eatWord word) := by
  unfold Tolerant.eatWord
  infer_instance

instance Forward.accept (kind : TokenKind) : Forward input (accept kind) := by
  unfold Tolerant.accept
  infer_instance

theorem skipBalanced_bounds (hi : i ≤ input.last) :
    i ≤ (skipBalanced input i).2 ∧ (skipBalanced input i).2 ≤ input.last ∧
      (i < input.last → i < (skipBalanced input i).2) := by
  simp only [skipBalanced, bind_run, read_run, get_run]
  cases hmatch : input.matching i with
  | some close =>
    have := Input.matching_bounds hi hmatch
    simp only [set_run]
    omega
  | none =>
    simp only [set_run]
    omega

instance Forward.skipBalanced : Forward input skipBalanced where
  le _ hi := (skipBalanced_bounds hi).1
  le_last _ hi := (skipBalanced_bounds hi).2.1

instance Takes.skipBalanced : Takes input skipBalanced where
  lt _ hi := (skipBalanced_bounds (Nat.le_of_lt hi)).2.2 hi

theorem skipAngle_bounds (hi : i ≤ input.last) :
    i ≤ (skipAngle input i).2 ∧ (skipAngle input i).2 ≤ input.last ∧
      (i < input.last → i < (skipAngle input i).2) := by
  simp only [skipAngle, bind_run, read_run, get_run]
  cases hmatch : input.matchingAngle i false with
  | some close =>
    have := Input.matchingAngle_bounds hi hmatch
    simp only [set_run]
    omega
  | none => exact ⟨Forward.bump.le i hi, Forward.bump.le_last i hi, Takes.bump.lt i⟩

instance Forward.skipAngle : Forward input skipAngle where
  le _ hi := (skipAngle_bounds hi).1
  le_last _ hi := (skipAngle_bounds hi).2.1

instance Takes.skipAngle : Takes input skipAngle where
  lt _ hi := (skipAngle_bounds (Nat.le_of_lt hi)).2.2 hi

theorem skipType_snd (stops : List TokenKind) (hi : i ≤ input.last) :
    (skipType stops input i).2 = input.typeEnd stops i := by
  have hle : i ≤ input.typeEnd stops i := (Input.typeEnd_bounds hi).1
  simp only [skipType, bind_run, read_run, get_run, startOffset_run]
  by_cases h : i < input.typeEnd stops i
  · rw [if_pos h, bind_run, set_run, bind_run, spanFrom_run, pure_run]
  · rw [if_neg h, pure_run]
    omega

instance Forward.skipType (stops : List TokenKind) : Forward input (skipType stops) where
  le i hi := by
    rw [skipType_snd stops hi]
    exact (Input.typeEnd_bounds hi).1
  le_last i hi := by
    rw [skipType_snd stops hi]
    exact (Input.typeEnd_bounds hi).2

instance Forward.skipStmt : Forward input skipStmt where
  le _ hi := (Input.stmtEnd_bounds hi).1
  le_last _ hi := (Input.stmtEnd_bounds hi).2

instance Forward.skipOperand : Forward input skipOperand := by
  unfold Tolerant.skipOperand
  infer_instance

instance Forward.repeatFor {stop : Parse Bool} [Forward input stop] [Forward input item]
    (fuel : Nat) : Forward input (repeatFor stop item fuel) := by
  induction fuel with
  | zero =>
    unfold Tolerant.repeatFor
    infer_instance
  | succ fuel ih =>
    unfold Tolerant.repeatFor
    infer_instance

instance Forward.repeatUntil {stop : Parse Bool} [Forward input stop] [Forward input item] :
    Forward input (repeatUntil stop item) := by
  unfold Tolerant.repeatUntil
  infer_instance

instance Forward.advancing {item : Parse α} [Forward input item] : Forward input (advancing item) := by
  unfold Tolerant.advancing
  infer_instance

instance Takes.advancing {item : Parse α} [hitem : Forward input item] :
    Takes input (advancing item) where
  lt i hi := by
    have hle := hitem.le i (Nat.le_of_lt hi)
    simp only [Tolerant.advancing, bind_run, get_run]
    by_cases heq : (item input i).2 = i
    · rw [if_pos heq, heq]
      exact Takes.bump.lt i hi
    · rw [if_neg heq, pure_run]
      exact Nat.lt_of_le_of_ne hle (Ne.symm heq)

instance Forward.listed [Forward input item] : Forward input (listed item) := by
  unfold Tolerant.listed
  infer_instance

end lined

end SfcTsx.Script.Tolerant
