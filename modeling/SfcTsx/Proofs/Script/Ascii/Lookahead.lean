import SfcTsx.Proofs.Script.Ascii.Pairs

namespace SfcTsx.Script

variable {s s' word : String} {n : Nat} {cs : List Char} {needle : Text}

/-- The second value is what the first comes to. -/
class Reads {α : Type} (x : α) (y : outParam α) : Prop where
  eq : x = y

instance {α : Type} (x : α) : Reads x x := ⟨rfl⟩

class PlainChars (cs : List Char) : Prop where
  plain : cs.all isPlain = true

class Plain (word : String) : Prop where
  plain : word.toList.all isPlain = true

instance : PlainChars [] := ⟨rfl⟩

theorem PlainChars.cons (hn : n < 128) (hne : n ≠ 95) (hcs : PlainChars cs) :
    PlainChars (Char.ofNat n :: cs) where
  plain := by
    have hvalid : n.isValidChar := Or.inl (by omega)
    have hn' : (Char.ofNat n).toNat = n := by
      rw [Char.ofNat, dif_pos hvalid]
      rfl
    have hne' : Char.ofNat n ≠ '_' := fun h => hne (hn'.symm.trans (congrArg Char.toNat h))
    simp [isPlain, hn', hn, hne', hcs.plain]

instance [hn : Reads (Nat.ble n 94) true] [hcs : PlainChars cs] :
    PlainChars (Char.ofNat n :: cs) := by
  have := Nat.le_of_ble_eq_true hn.eq
  exact .cons (by omega) (by omega) hcs

instance [hlow : Reads (Nat.ble 96 n) true] [hhigh : Reads (Nat.ble n 127) true]
    [hcs : PlainChars cs] : PlainChars (Char.ofNat n :: cs) := by
  have := Nat.le_of_ble_eq_true hlow.eq
  have := Nat.le_of_ble_eq_true hhigh.eq
  exact .cons (by omega) (by omega) hcs

instance [h : Reads word (String.ofList cs)] [hcs : PlainChars cs] : Plain word where
  plain := by
    rw [h.eq, String.toList_ofList]
    exact hcs.plain

class PlainWords (words : List String) : Prop where
  plain : ∀ w ∈ words, w.toList.all isPlain = true

instance : PlainWords [] := ⟨nofun⟩

instance {words : List String} [h : Plain word] [hs : PlainWords words] :
    PlainWords (word :: words) where
  plain := List.forall_mem_cons.mpr ⟨h.plain, hs.plain⟩

variable {a : Ascii} {α : Type}

namespace Same

instance (priority := low) refl (x : α) : Same a x x := ⟨rfl⟩

section connectives

variable {x x' y : α} [hx : Same a x x'] {p p' : Prop} [hp : Same a p p']
  {b b' c c' : Bool} [hb : Same a b b'] [hc : Same a c c']

instance eqConst : Same a (x = y) (x' = y) := ⟨congrArg (· = y) hx.eq⟩

instance beqConst [BEq α] : Same a (x == y) (x' == y) := ⟨congrArg (· == y) hx.eq⟩

instance bneConst [BEq α] : Same a (x != y) (x' != y) := ⟨congrArg (· != y) hx.eq⟩

instance contains [BEq α] {ys : List α} : Same a (ys.contains x) (ys.contains x') :=
  ⟨congrArg ys.contains hx.eq⟩

instance not : Same a (¬p) (¬p') := ⟨congrArg Not hp.eq⟩

instance boolAnd : Same a (b && c) (b' && c') := ⟨congrArg₂ Bool.and hb.eq hc.eq⟩

instance boolOr : Same a (b || c) (b' || c') := ⟨congrArg₂ Bool.or hb.eq hc.eq⟩

instance boolNot : Same a (!b) (!b') := ⟨congrArg Bool.not hb.eq⟩

instance decided [Decidable p] [Decidable p'] : Same a (decide p) (decide p') :=
  ⟨decide_eq_decide.mpr (Iff.of_eq hp.eq)⟩

instance ite [Decidable p] [Decidable p'] : Same a (if p then x else y) (if p' then x' else y) where
  eq := by simp only [hp.eq, hx.eq]

instance itePair [Paired α] [Decidable p] [Decidable p'] {z z' y' : α} [hz : Pair a z z']
    [hy : Pair a y y'] : Pair a (if p then z else y) (if p' then z' else y') := by
  obtain rfl : p = p' := hp.eq
  split
  · exact hz
  · exact hy

end connectives

theorem eq_iff (hs : Paired.rel a s s') (hw : word.toList.all isPlain = true) :
    s = word ↔ s' = word := by
  rw [show s = asciiText s' from hs, asciiText_eq_iff hw]

theorem text_cases {words : List String} (hws : PlainWords words) (hs : Pair a s s') :
    s = s' ∨ s ∉ words ∧ s' ∉ words := by
  by_cases hmem : s' ∈ words
  · exact .inl ((eq_iff hs.rel (hws.plain s' hmem)).mpr rfl)
  · refine .inr ⟨fun h => hmem ?_, hmem⟩
    rwa [(eq_iff hs.rel (hws.plain s h)).mp rfl]

section words

variable {s s' : String} [hs : Pair a s s'] {word : String} [hw : Plain word] {words : List String}
  [hws : PlainWords words]

instance eqWord : Same a (s = word) (s' = word) := ⟨propext (eq_iff hs.rel hw.plain)⟩

instance beqWord : Same a (s == word) (s' == word) where
  eq := by rw [Bool.eq_iff_iff, beq_iff_eq, beq_iff_eq, eq_iff hs.rel hw.plain]

instance bneWord : Same a (s != word) (s' != word) where
  eq := by rw [Bool.eq_iff_iff, bne_iff_ne, bne_iff_ne, ne_eq, ne_eq, eq_iff hs.rel hw.plain]

instance containsWord : Same a (words.contains s) (words.contains s') where
  eq := by
    obtain rfl | ⟨hmem, hmem'⟩ := text_cases hws hs
    · rfl
    · rw [Bool.eq_iff_iff, List.contains_iff_mem, List.contains_iff_mem, iff_false_intro hmem,
        iff_false_intro hmem']

instance wordsContain {ss ss' : List String} [hss : Pair a ss ss'] :
    Same a (ss.contains word) (ss'.contains word) where
  eq := by
    obtain ⟨hss⟩ := hss
    induction hss with
    | nil => rfl
    | cons h _ ih =>
      have hword := eq_iff h hw.plain
      rw [List.contains_cons, List.contains_cons, ih, Bool.eq_iff_iff, Bool.or_eq_true, Bool.or_eq_true,
        beq_iff_eq, beq_iff_eq, eq_comm, hword, eq_comm]

end words

theorem toList_eq (h : Paired.rel a s s') : s.toList = s'.toList.map asciiChar := by
  rw [show s = asciiText s' from h, asciiText, String.toList_ofList]

theorem isPrefixOf_map (hn : needle.all isPlain = true) (cs : Text) :
    needle.isPrefixOf (cs.map asciiChar) = needle.isPrefixOf cs := by
  induction needle generalizing cs with
  | nil => rfl
  | cons k needle ih =>
    cases cs with
    | nil => rfl
    | cons c cs =>
      rw [List.all_cons, Bool.and_eq_true] at hn
      have hk : (k == asciiChar c) = (k == c) := by
        rw [Bool.eq_iff_iff, beq_iff_eq, beq_iff_eq, eq_comm, asciiChar_eq_iff hn.1, eq_comm]
      rw [List.map_cons, List.isPrefixOf, List.isPrefixOf, hk, ih hn.2]

theorem contains_map (hn : needle.all isPlain = true) (cs : Text) :
    Text.contains needle (cs.map asciiChar) = Text.contains needle cs := by
  induction cs with
  | nil => rfl
  | cons c cs ih =>
    simp only [Text.contains] at ih ⊢
    rw [List.map_cons, Text.cutAt?, Text.cutAt?, ← List.map_cons, isPrefixOf_map hn]
    split
    · rfl
    · rw [Option.isSome_map, Option.isSome_map, ih]

instance containsText [hs : Pair a s s'] [hn : PlainChars needle] :
    Same a (Text.contains needle s.toList) (Text.contains needle s'.toList) where
  eq := by rw [toList_eq hs.rel, contains_map hn.plain]

instance endsInEquals [hs : Pair a s s'] :
    Same a (s.toList.getLast? == some '=') (s'.toList.getLast? == some '=') where
  eq := by
    have hplain : isPlain '=' = true := by decide
    rw [toList_eq hs.rel, List.getLast?_map]
    cases s'.toList.getLast? with
    | none => rfl
    | some c => simp [asciiChar_eq_iff hplain]

theorem unquote_map (cs : Text) : unquote (cs.map asciiChar) = (unquote cs).map asciiChar := by
  cases cs with
  | nil => rfl
  | cons first rest =>
    simp (disch := decide) only [List.map_cons, unquote, Token.beq_asciiChar]
    by_cases hquote : (first == '"' || first == '\'' || first == '\x60') = true
    · have hplain : isPlain first = true := by
        simp only [Bool.or_eq_true, beq_iff_eq] at hquote
        obtain (rfl | rfl) | rfl := hquote <;> decide
      have hlast : ((rest.map asciiChar).getLast? == some first) = (rest.getLast? == some first) := by
        rw [List.getLast?_map]
        cases rest.getLast? with
        | none => rfl
        | some c => simp [asciiChar_eq_iff hplain]
      rw [(asciiChar_eq_iff hplain first).mpr rfl, hlast]
      simp [apply_ite (List.map asciiChar), (asciiChar_eq_iff hplain first).mpr rfl]
    · rw [Bool.not_eq_true, Bool.or_eq_false_iff] at hquote
      simp [hquote]

section tokens

variable {t t' : Token} [ht : Pair a t t']

instance kind : Same a t.kind t'.kind := ⟨ht.rel.kind⟩

instance newlineBefore : Same a t.newlineBefore t'.newlineBefore := ⟨ht.rel.newlineBefore⟩

instance isWord [Plain word] : Same a (t.isWord word) (t'.isWord word) := by
  unfold Token.isWord
  infer_instance

instance stringLitValue : Pair a t.stringLit.value t'.stringLit.value where
  rel := by
    have htext : t.text.toList = t'.text.toList.map asciiChar := toList_eq (a := a) ht.rel.text
    simp [Paired.rel, asciiText, Token.stringLit, htext, unquote_map]

instance isCloser {k k' : TokenKind} [hk : Same a k k'] : Same a (Token.isCloser k) (Token.isCloser k') :=
  ⟨congrArg Token.isCloser hk.eq⟩

instance isTyped {d d' : Dialect} [hd : Same a d d'] : Same a d.isTyped d'.isTyped :=
  ⟨congrArg Dialect.isTyped hd.eq⟩

instance hasMarkup {d d' : Dialect} [hd : Same a d d'] : Same a d.hasMarkup d'.hasMarkup :=
  ⟨congrArg Dialect.hasMarkup hd.eq⟩

instance isSome {o o' : Option Token} [ho : Pair a o o'] : Same a o.isSome o'.isSome := by
  cases ho.rel <;> exact refl _

-- A word takes an instance for each of its letters.
set_option synthInstance.maxSize 512 in
instance startsDeclaration :
    Same a (Tolerant.Input.startsDeclaration t) (Tolerant.Input.startsDeclaration t') := by
  unfold Tolerant.Input.startsDeclaration
  infer_instance

instance startsMemberKey :
    Same a (Tolerant.Level.startsMemberKey t) (Tolerant.Level.startsMemberKey t') := by
  unfold Tolerant.Level.startsMemberKey
  infer_instance

instance isLeadingSign [Pair a s s'] :
    Same a (Tolerant.Level.isLeadingSign s) (Tolerant.Level.isLeadingSign s') := by
  unfold Tolerant.Level.isLeadingSign
  infer_instance

set_option synthInstance.maxSize 512 in
instance isStmtKeyword [Pair a s s'] :
    Same a (Tolerant.Level.isStmtKeyword s) (Tolerant.Level.isStmtKeyword s') := by
  unfold Tolerant.Level.isStmtKeyword
  infer_instance

instance startsOperand :
    Same a (Tolerant.Level.startsOperand t) (Tolerant.Level.startsOperand t') := by
  unfold Tolerant.Level.startsOperand
  infer_instance

instance isAssignment : Same a (Tolerant.Level.isAssignment t) (Tolerant.Level.isAssignment t') := by
  unfold Tolerant.Level.isAssignment
  rw [ht.rel.kind]
  split <;> infer_instance

instance isBinaryOperator :
    Same a (Tolerant.Level.isBinaryOperator t) (Tolerant.Level.isBinaryOperator t') := by
  unfold Tolerant.Level.isBinaryOperator
  rw [ht.rel.kind]
  split <;> infer_instance

end tokens
end Same

namespace Tolerant

/-- The tokens of the ASCII form and of the script. -/
class Input.Twins (a : Ascii) (i j : Input) : Prop where
  dialect : i.dialect = j.dialect
  source : j.source = a.source
  size : i.tokens.size = j.tokens.size
  token : ∀ n, Token.Twin a (i.tokenAt n) (j.tokenAt n)
  offset_zero : a.offset 0 = 0
  offset_mono : Monotone a.offset

namespace Input.Twins

variable {i j : Input} (h : Twins a i j)

include h

theorem last : i.last = j.last := by
  rw [Input.last, Input.last, h.size]

theorem pair (n : Nat) : Pair a (i.tokenAt n) (j.tokenAt n) := ⟨h.token n⟩

theorem kind (n : Nat) : (i.tokenAt n).kind = (j.tokenAt n).kind := (h.token n).kind

theorem newlineBefore (n : Nat) : (i.tokenAt n).newlineBefore = (j.tokenAt n).newlineBefore :=
  (h.token n).newlineBefore

theorem text (n : Nat) : (i.tokenAt n).text = asciiText (j.tokenAt n).text := (h.token n).text

theorem matchingFrom (fuel depth n : Nat) :
    i.matchingFrom fuel depth n = j.matchingFrom fuel depth n := by
  induction fuel generalizing depth n with
  | zero => rfl
  | succ fuel ih => simp only [Input.matchingFrom, h.kind, ih]

theorem matching (n : Nat) : i.matching n = j.matching n := by
  rw [Input.matching, Input.matching, h.size, h.matchingFrom]

theorem matchingAngleFrom (typeLike : Bool) (fuel angles nest n : Nat) :
    i.matchingAngleFrom typeLike fuel angles nest n = j.matchingAngleFrom typeLike fuel angles nest n := by
  induction fuel generalizing angles nest n with
  | zero => rfl
  | succ fuel ih =>
    simp (disch := decide) only [Input.matchingAngleFrom, h.kind, h.text, ne_eq, asciiText_eq_iff, ih]

theorem matchingAngle (n : Nat) (typeLike : Bool) :
    i.matchingAngle n typeLike = j.matchingAngle n typeLike := by
  rw [Input.matchingAngle, Input.matchingAngle, h.size, h.matchingAngleFrom]

theorem lineEndsType (n : Nat) : i.lineEndsType n = j.lineEndsType n := by
  have := h.pair n
  have hword {words : List String} [PlainWords words] :
      words.contains (i.tokenAt n).text = words.contains (j.tokenAt n).text := Same.eq a
  simp only [Input.lineEndsType, h.kind, hword]

theorem typeEndsAt (stops : List TokenKind) (first n : Nat) :
    i.typeEndsAt stops first n = j.typeEndsAt stops first n := by
  simp (disch := decide) only [Input.typeEndsAt, h.kind, h.text, h.newlineBefore, asciiText_eq_iff,
    h.lineEndsType]

theorem typeEndFrom (stops : List TokenKind) (first fuel nest angles n : Nat) :
    i.typeEndFrom stops first fuel nest angles n = j.typeEndFrom stops first fuel nest angles n := by
  induction fuel generalizing nest angles n with
  | zero => rfl
  | succ fuel ih => simp only [Input.typeEndFrom, h.kind, h.typeEndsAt, ih]

theorem typeEnd (stops : List TokenKind) (n : Nat) : i.typeEnd stops n = j.typeEnd stops n := by
  rw [Input.typeEnd, Input.typeEnd, h.size, h.typeEndFrom]

theorem stmtEndFrom (first fuel depth n : Nat) :
    i.stmtEndFrom first fuel depth n = j.stmtEndFrom first fuel depth n := by
  induction fuel generalizing depth n with
  | zero => rfl
  | succ fuel ih =>
    have := h.pair n
    have hstarts : startsDeclaration (i.tokenAt n) = startsDeclaration (j.tokenAt n) := Same.eq a
    simp only [Input.stmtEndFrom, h.kind, h.newlineBefore, hstarts, ih]

theorem stmtEnd : i.stmtEnd = j.stmtEnd := by
  funext n
  rw [Input.stmtEnd, Input.stmtEnd, h.size, h.stmtEndFrom]

theorem arrowAfterType (fuel nest n : Nat) :
    i.arrowAfterType fuel nest n = j.arrowAfterType fuel nest n := by
  induction fuel generalizing nest n with
  | zero => rfl
  | succ fuel ih => simp only [Input.arrowAfterType, h.kind, ih]

theorem arrowParamsAt (n : Nat) : i.arrowParamsAt n = j.arrowParamsAt n := by
  simp only [Input.arrowParamsAt, h.kind, h.size, h.matching, h.arrowAfterType]

theorem arrowAt (n : Nat) : i.arrowAt n = j.arrowAt n := by
  have := h.pair (n + 2)
  have hword : (i.tokenAt (n + 2)).isWord "extends" = (j.tokenAt (n + 2)).isWord "extends" := Same.eq a
  simp only [Input.arrowAt, h.kind, h.dialect, h.matchingAngle, h.arrowParamsAt, hword]

theorem endBefore (n : Nat) : a.offset (i.endBefore n) = j.endBefore n := by
  cases n with
  | zero => exact h.offset_zero
  | succ n => exact congrArg Span.stop (h.token n).span

end Input.Twins
end Tolerant
end SfcTsx.Script
