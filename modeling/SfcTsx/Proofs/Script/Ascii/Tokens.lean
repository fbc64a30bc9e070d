import SfcTsx.Proofs.Script.Tokens
import SfcTsx.Script.Ascii
import Mathlib.Data.List.Find
import Mathlib.Data.List.Forall2
import Mathlib.Tactic.SplitIfs

namespace SfcTsx.Script

variable {c : Char} {cs : Text}

def asciiChar (c : Char) : Char := if c.toNat < 128 then c else '_'

def isPlain (c : Char) : Bool := c.toNat < 128 && c != '_'

theorem asciiChar_congr {α : Type} {p : Char → α} (h : ∀ c, 128 ≤ c.toNat → p '_' = p c) (c : Char) :
    p (asciiChar c) = p c := by
  unfold asciiChar
  split
  · rfl
  · exact h c (by omega)

theorem asciiChar_eq_iff {k : Char} (hk : isPlain k = true) (c : Char) : asciiChar c = k ↔ c = k := by
  simp only [isPlain, Bool.and_eq_true, decide_eq_true_eq, bne_iff_ne, ne_eq] at hk
  refine Iff.of_eq (asciiChar_congr (p := fun c => c = k) (fun c hc => ?_) c)
  refine propext ⟨fun h => absurd h.symm hk.2, fun h => ?_⟩
  rw [h] at hc
  omega

def asciiText (s : String) : String := String.ofList (s.toList.map asciiChar)

theorem map_asciiChar_eq_iff {w : Text} (hw : ∀ k ∈ w, isPlain k = true) (cs : Text) :
    cs.map asciiChar = w ↔ cs = w := by
  induction w generalizing cs with
  | nil => exact List.map_eq_nil_iff
  | cons k w ih =>
    cases cs with
    | nil => simp
    | cons c cs =>
      rw [List.map_cons, List.cons.injEq, List.cons.injEq, asciiChar_eq_iff (hw k (.head _)),
        ih fun k hk => hw k (.tail _ hk)]

theorem asciiText_eq_iff {w : String} (hw : w.toList.all isPlain = true) (s : String) :
    asciiText s = w ↔ s = w := by
  rw [asciiText, ← String.toList_inj, String.toList_ofList, ← String.toList_inj]
  exact map_asciiChar_eq_iff (List.all_eq_true.mp hw) s.toList

theorem asciiChar_of_lt (h : c.toNat < 128) : asciiChar c = c := if_pos h

namespace Token

theorem toNat_lt (h : (c.isAlpha || c.isDigit) = true) : c.toNat < 128 := by
  rcases Bool.or_eq_true_iff.mp h with h | h
  · have := Text.toNat_of_isAlpha h
    omega
  · have := Text.toNat_of_isDigit h
    omega

theorem isNumberPart_lt (h : isNumberPart c = true) : c.toNat < 128 := by
  simp only [isNumberPart, Bool.or_eq_true, beq_iff_eq] at h
  rcases h with h | rfl
  · exact toNat_lt (by simpa using h)
  · decide

theorem not_alphanum (h : 128 ≤ c.toNat) : c.isAlpha = false ∧ c.isDigit = false := by
  have hnot : ¬ (c.isAlpha || c.isDigit) = true := fun hc => by
    have := toNat_lt hc
    omega
  simpa using hnot

@[simp] theorem isAlpha_asciiChar (c : Char) : (asciiChar c).isAlpha = c.isAlpha :=
  asciiChar_congr (fun _ hc => (not_alphanum hc).1.symm) c

@[simp] theorem isDigit_asciiChar (c : Char) : (asciiChar c).isDigit = c.isDigit :=
  asciiChar_congr (fun _ hc => (not_alphanum hc).2.symm) c

@[simp] theorem isWordStart_asciiChar (c : Char) : isWordStart (asciiChar c) = isWordStart c :=
  asciiChar_congr (fun c hc => by simp [isWordStart, hc]) c

@[simp] theorem isWordPart_asciiChar (c : Char) : isWordPart (asciiChar c) = isWordPart c := by
  simp [isWordPart]

@[simp] theorem beq_asciiChar {k : Char} (hk : isPlain k = true) (c : Char) :
    (asciiChar c == k) = (c == k) := by
  rw [Bool.eq_iff_iff, beq_iff_eq, beq_iff_eq, asciiChar_eq_iff hk]

@[simp] theorem isBlank_asciiChar (c : Char) : isBlank (asciiChar c) = isBlank c := by
  simp (disch := decide) only [isBlank, beq_asciiChar]

theorem runLength_map {p : Char → Bool} (hp : ∀ c, p (asciiChar c) = p c) (cs : Text) :
    runLength p (cs.map asciiChar) = runLength p cs := by
  induction cs with
  | nil => rfl
  | cons c cs ih => simp [runLength, hp, ih]

/-- What stands behind so many characters, if anything does, is ASCII. -/
def AsciiAfter (n : Nat) (cs : Text) : Prop := ∀ c ∈ (cs.drop n).head?, c.toNat < 128

theorem runLength_number (h : AsciiAfter (runLength isNumberPart cs) cs) :
    runLength isNumberPart (cs.map asciiChar) = runLength isNumberPart cs := by
  induction cs with
  | nil => rfl
  | cons c cs ih =>
    by_cases hc : isNumberPart c = true
    · simp only [runLength, hc, if_true] at h
      simp only [List.map_cons, runLength, asciiChar_of_lt (isNumberPart_lt hc), hc, if_true, ih h]
    · simp only [runLength, hc] at h
      have hlt : c.toNat < 128 := h c (by simp)
      simp only [List.map_cons, runLength, asciiChar_of_lt hlt, hc]
      rfl

theorem numberLength_map (h : AsciiAfter (numberLength cs) cs) :
    numberLength (cs.map asciiChar) = numberLength cs := by
  have hwhole : AsciiAfter (runLength isNumberPart cs) cs := by
    unfold numberLength at h
    simp only at h
    split at h
    next fraction hdrop =>
      intro c hc
      obtain rfl : '.' = c := by simpa [hdrop] using hc
      decide
    next => exact h
  unfold numberLength at h ⊢
  simp only [runLength_number hwhole, ← List.map_drop] at h ⊢
  generalize hrest : cs.drop (runLength isNumberPart cs) = rest at h ⊢
  rcases rest with _ | ⟨c, fraction⟩
  · rfl
  · by_cases hdot : c = '.'
    · subst hdot
      have hfraction : AsciiAfter (runLength isNumberPart fraction) fraction := by
        intro c hc
        have hdrop : cs.drop (runLength isNumberPart cs + 1 + runLength isNumberPart fraction) =
            fraction.drop (runLength isNumberPart fraction) := by
          rw [← List.drop_drop, ← List.drop_drop, hrest]
          rfl
        exact h c (hdrop ▸ hc)
      rw [List.map_cons]
      exact congrArg (_ + 1 + ·) (runLength_number hfraction)
    · have hmap : asciiChar c ≠ '.' := fun hc => hdot ((asciiChar_eq_iff (by decide) c).mp hc)
      rw [List.map_cons]
      split
      · next heq => exact absurd (List.cons.inj heq).1 hmap
      · split
        · next heq => exact absurd (List.cons.inj heq).1 hdot
        · rfl

theorem stringLength_map {quote : Char} (hquote : isPlain quote = true) (cs : Text) :
    stringLength quote (cs.map asciiChar) = stringLength quote cs := by
  fun_induction stringLength quote cs <;> rw [List.map, stringLength.eq_def] <;>
    simp (disch := first | assumption | decide) [asciiChar_eq_iff, *]

/-- The strings in code are open with quotes that stand for themselves. -/
def PlainQuotes : List Nesting → Prop
  | [] => True
  | .quoted quote :: outer => isPlain quote = true ∧ PlainQuotes outer
  | _ :: outer => PlainQuotes outer

theorem asciiChar_quote (h : (decide (c = '"') || decide (c = '\'')) = true) :
    asciiChar c = c ∧ isPlain c = true := by
  simp only [Bool.or_eq_true, decide_eq_true_eq] at h
  rcases h with rfl | rfl <;> decide

theorem templateLength_map {ns : List Nesting} (hns : PlainQuotes ns) (cs : Text) :
    templateLength ns (cs.map asciiChar) = templateLength ns cs := by
  have hmark (c : Char) : (asciiChar c = '\\' ↔ c = '\\') ∧ (asciiChar c = '\x60' ↔ c = '\x60') ∧
      (asciiChar c = '\x7b' ↔ c = '\x7b') ∧ (asciiChar c = '\x7d' ↔ c = '\x7d') ∧
      (asciiChar c = '"' ↔ c = '"') ∧ (asciiChar c = '\'' ↔ c = '\'') ∧
      (asciiChar c = '\n' ↔ c = '\n') := by
    simp (disch := decide) only [asciiChar_eq_iff, and_self]
  fun_induction templateLength ns cs
  case case1 => rw [templateLength]
  all_goals rw [List.map, templateLength.eq_def]
  case case7 ih =>
    simp only [beq_asciiChar (k := '$') (by decide)]
    simp_all [PlainQuotes]
  case case12 hc ih =>
    obtain ⟨hsame, hplain⟩ := asciiChar_quote hc
    simp_all [PlainQuotes]
  -- In a string in code the quote that it is open with counts, too.
  case case14 | case15 | case16 | case17 =>
    have hquote := asciiChar_eq_iff hns.1
    simp_all [PlainQuotes]
  all_goals simp_all [PlainQuotes]

theorem regexLength_map (inClass : Bool) (cs : Text) :
    regexLength inClass (cs.map asciiChar) = regexLength inClass cs := by
  have halpha (cs : Text) : runLength Char.isAlpha (cs.map asciiChar) = runLength Char.isAlpha cs :=
    runLength_map isAlpha_asciiChar cs
  fun_induction regexLength inClass cs <;> rw [List.map, regexLength.eq_def] <;>
    simp (disch := first | assumption | decide) [asciiChar_eq_iff, *]

theorem commentLength_map (cs : Text) : commentLength (cs.map asciiChar) = commentLength cs := by
  induction cs with
  | nil => rfl
  | cons c cs ih =>
    have hslash : (cs.map asciiChar).head? = some '/' ↔ cs.head? = some '/' := by
      cases cs <;> simp (disch := decide) [asciiChar_eq_iff]
    rw [List.map_cons, commentLength_cons, commentLength_cons, ih]
    simp (disch := decide) only [asciiChar_eq_iff, hslash]

theorem isPrefixOf_map {spelling : Text} (h : ∀ s ∈ spelling, isPlain s = true) (cs : Text) :
    spelling.isPrefixOf (cs.map asciiChar) = spelling.isPrefixOf cs := by
  induction spelling generalizing cs with
  | nil => simp
  | cons s spelling ih =>
    cases cs with
    | nil => rfl
    | cons c cs =>
      have hs : (s == asciiChar c) = (s == c) := by
        rw [Bool.beq_comm, beq_asciiChar (h s (.head _)), Bool.beq_comm]
      simp [List.isPrefixOf_cons_cons, hs, ih fun s hs => h s (.tail _ hs)]

theorem fixedLexeme_map (cs : Text) : fixedLexeme (cs.map asciiChar) = fixedLexeme cs := by
  have hall : (fixed.all fun entry => entry.1.all isPlain) = true := by decide +kernel
  have hplain : ∀ entry ∈ fixed, ∀ s ∈ entry.1, isPlain s = true := fun entry hmem =>
    List.all_eq_true.mp (List.all_eq_true.mp hall entry hmem)
  unfold fixedLexeme
  rw [List.find?_congr fun entry hmem => isPrefixOf_map (hplain entry hmem) cs]

def NumberEnds (cs : Text) (lexeme : Option TokenKind × Nat) : Prop :=
  lexeme.1 = some .number → AsciiAfter lexeme.2 cs

theorem signLexeme_map (h : NumberEnds (c :: cs) (signLexeme c cs)) :
    signLexeme (asciiChar c) (cs.map asciiChar) = signLexeme c cs := by
  have hhead {k : Char} (hk : isPlain k = true) :
      (cs.map asciiChar).head? = some k ↔ cs.head? = some k := by
    cases cs <;> simp [asciiChar_eq_iff hk]
  have hdigit : (cs.map asciiChar).head?.any Char.isDigit = cs.head?.any Char.isDigit := by
    cases cs <;> simp
  have hline : runLength (· != '\n') (cs.tail.map asciiChar) = runLength (· != '\n') cs.tail := by
    refine runLength_map (fun c => ?_) _
    simp only [bne, beq_asciiChar (k := '\n') (by decide)]
  have hfixed : fixedLexeme (asciiChar c :: cs.map asciiChar) = fixedLexeme (c :: cs) :=
    fixedLexeme_map (c :: cs)
  unfold signLexeme at h ⊢
  simp only [asciiChar_eq_iff (k := '/') (by decide), asciiChar_eq_iff (k := '.') (by decide),
    hhead (k := '/') (by decide), hhead (k := '*') (by decide), hdigit, hline, hfixed, ← List.map_tail,
    commentLength_map]
  split_ifs at h ⊢ with _ _ hnumber
  · rfl
  · rfl
  · cases cs with
    | nil => cases hnumber.2
    | cons d rest =>
      have hrest : runLength isNumberPart (rest.map asciiChar) = runLength isNumberPart rest :=
        runLength_number (h rfl)
      rw [List.tail_cons, hrest]
  · rfl

theorem lexeme_map (h : NumberEnds cs (lexeme cs)) : lexeme (cs.map asciiChar) = lexeme cs := by
  cases cs with
  | nil => rfl
  | cons c cs =>
    have htemplate : lengthIn (templateEnd (Text.byteChars (cs.map asciiChar))) (cs.map asciiChar) =
        lengthIn (templateEnd (Text.byteChars cs)) cs := by
      have hend : templateEnd (cs.map asciiChar) = templateEnd cs := by
        rw [templateEnd, templateLength_map (by simp [PlainQuotes]), List.length_map, templateEnd]
      simp [templateEnd_byteChars, lengthIn_size_take, hend]
    rw [lexeme_cons] at h
    rw [List.map_cons, lexeme_cons, lexeme_cons]
    simp only [isBlank_asciiChar, isWordStart_asciiChar, isDigit_asciiChar,
      asciiChar_eq_iff (k := '\n') (by decide), asciiChar_eq_iff (k := '"') (by decide),
      asciiChar_eq_iff (k := '\'') (by decide), asciiChar_eq_iff (k := '\x60') (by decide),
      runLength_map isBlank_asciiChar, runLength_map isWordPart_asciiChar, htemplate]
    split_ifs at h ⊢ with _ _ _ hdigit hquote _
    · rfl
    · rfl
    · rfl
    · have hnumber := numberLength_map (h rfl)
      rw [List.map_cons] at hnumber
      rw [hnumber]
    · obtain ⟨hsame, hplain⟩ := asciiChar_quote hquote
      rw [hsame, stringLexeme, stringLexeme, stringLength_map hplain]
    · rfl
    · exact signLexeme_map h

theorem lexemeAt_map (regexAllowed : Bool) (h : NumberEnds cs (lexemeAt regexAllowed cs)) :
    lexemeAt regexAllowed (cs.map asciiChar) = lexemeAt regexAllowed cs := by
  have hlexeme : lexeme (cs.map asciiChar) = lexeme cs := by
    refine lexeme_map fun hnumber => ?_
    have hsame : lexemeAt regexAllowed cs = lexeme cs := by
      unfold lexemeAt
      generalize lexeme cs = found at hnumber
      obtain ⟨kind, n⟩ := found
      obtain rfl : kind = some .number := hnumber
      rfl
    rw [hsame] at h
    exact h hnumber
  unfold lexemeAt
  cases cs with
  | nil => rfl
  | cons c cs =>
    rw [hlexeme, List.map_cons]
    simp [regexChars?_cons, regexLength_map]

theorem lt_of_mem_number (h : c ∈ cs.take (numberLength cs)) : c.toNat < 128 := by
  unfold numberLength at h
  simp only at h
  split at h
  next fraction hdrop =>
    rw [Nat.add_assoc, List.take_add, hdrop, List.mem_append, Nat.add_comm 1, List.take_succ_cons,
      List.mem_cons] at h
    rcases h with h | rfl | h
    · exact isNumberPart_lt (mem_take_runLength h)
    · decide
    · exact isNumberPart_lt (mem_take_runLength h)
  next => exact isNumberPart_lt (mem_take_runLength h)

theorem lt_of_mem_lexeme {d : Char} {n : Nat} (h : lexeme (c :: cs) = (some .number, n))
    (hd : d ∈ (c :: cs).take n) : d.toNat < 128 := by
  rw [lexeme_cons] at h
  split_ifs at h
  · cases h
  · cases h
  · cases h
  · obtain rfl : numberLength (c :: cs) = n := congrArg Prod.snd h
    exact lt_of_mem_number hd
  · rw [stringLexeme] at h
    split_ifs at h
    · cases h
    · cases h
  · cases h
  · have hsign : ∀ m, (some (fixedLexeme (c :: cs)).1, m) ≠ (some TokenKind.number, n) := fun m heq =>
      fixedLexeme_kind (c :: cs) (by rw [Option.some.inj (congrArg Prod.fst heq)]; decide)
    rw [signLexeme] at h
    split_ifs at h with _ _ hdot
    · cases h
    · cases hcomment : commentLength cs.tail with
      | none => exact absurd (by simpa [hcomment] using h) (hsign _)
      | some m => simp [hcomment] at h
    · obtain ⟨rfl, hdigit⟩ := hdot
      obtain ⟨e, rest, rfl⟩ : ∃ e rest, cs = e :: rest := by
        cases cs with
        | nil => cases hdigit
        | cons e rest => exact ⟨e, rest, rfl⟩
      obtain rfl : runLength isNumberPart rest + 2 = n := congrArg Prod.snd h
      simp only [List.take_succ_cons, List.mem_cons] at hd
      rcases hd with rfl | rfl | hd
      · decide
      · exact toNat_lt (by simpa using .inr hdigit)
      · exact isNumberPart_lt (mem_take_runLength hd)
    · exact absurd h (hsign _)

end Token

namespace Ascii

theorem getElem?_charOffsets (offset : Nat) (pre cs : Text) :
    (charOffsets offset (pre ++ cs))[pre.length]? = some (offset + pre.size) := by
  induction pre generalizing offset with
  | nil => cases cs <;> simp [charOffsets]
  | cons c pre ih => simp [charOffsets, ih, Nat.add_assoc]

theorem offset_length (pre cs : Text) : (ofText (pre ++ cs)).offset pre.length = pre.size := by
  simp [offset, ofText, getElem?_charOffsets]

theorem span_length (pre mid post : Text) :
    (ofText (pre ++ (mid ++ post))).span ⟨pre.length, pre.length + mid.length⟩ =
      ⟨pre.size, pre.size + mid.size⟩ := by
  have hstart := offset_length pre (mid ++ post)
  have hstop := offset_length (pre ++ mid) post
  rw [List.append_assoc, List.length_append, Text.size_append] at hstop
  simp only [span, hstart, hstop]

theorem size_map (cs : Text) : Text.size (cs.map asciiChar) = cs.length := by
  induction cs with
  | nil => rfl
  | cons c cs ih =>
    have hsize : (asciiChar c).utf8Size = 1 := by
      rw [Char.utf8Size_eq_one_iff]
      unfold asciiChar
      split
      · next h => exact UInt32.le_iff_toNat_le.mpr (Nat.le_of_lt_succ h)
      · decide
    simp only [List.map_cons, Text.size_cons, List.length_cons, hsize, ih]
    omega

end Ascii

namespace Token

/-- The token is no number, or ASCII follows it. -/
def endsNumber (source : Text) (t : Token) : Bool :=
  t.kind != .number || ((Text.drop? t.span.stop source).bind List.head?).all (·.toNat < 128)

/-- A token of a script in ASCII and the token of the script that the table leads to. -/
structure Twin (a : Ascii) (t t' : Token) : Prop where
  kind : t.kind = t'.kind
  newlineBefore : t.newlineBefore = t'.newlineBefore
  span : a.span t.span = t'.span
  text : t.text = asciiText t'.text
  number : t'.kind = .number → t.text = t'.text
  atSpan : t'.span.text a.source = t'.text.toList

theorem Twin.text_eq {a : Ascii} {t t' : Token} (h : Twin a t t') :
    a.relocation.text t.span = t'.text.toList := by
  rw [← h.atSpan, ← h.span]
  rfl

theorem allowsRegexAfter_asciiText (kind : TokenKind) (s : String) :
    allowsRegexAfter kind (asciiText s) = allowsRegexAfter kind s := by
  cases kind with
  | word =>
    simp only [allowsRegexAfter, List.contains_eq_mem, List.mem_cons, List.not_mem_nil, or_false]
    simp (disch := decide) only [asciiText_eq_iff]
  | _ => rfl

theorem twin_endOfText (source : Text) (newline : Bool) :
    Twin (Ascii.ofText source) ⟨.endOfText, .empty source.length, newline, ""⟩
      ⟨.endOfText, .empty source.size, newline, ""⟩ where
  kind := rfl
  newlineBefore := rfl
  span := by
    have hoffset := Ascii.offset_length source []
    rw [List.append_nil] at hoffset
    simp [Ascii.span, Span.empty, hoffset]
  text := (by decide : "" = asciiText "")
  number h := nomatch h
  atSpan := by
    have hslice := Text.slice_tail source []
    rwa [List.append_nil] at hslice

theorem twin_mk (pre rest : Text) {text : Text} (kind : TokenKind) (newline : Bool)
    (hnumber : kind = .number → text.map asciiChar = text) :
    Twin (Ascii.ofText (pre ++ (text ++ rest)))
      ⟨kind, ⟨pre.length, pre.length + text.length⟩, newline, String.ofList (text.map asciiChar)⟩
      ⟨kind, ⟨pre.size, pre.size + text.size⟩, newline, String.ofList text⟩ where
  kind := rfl
  newlineBefore := rfl
  span := Ascii.span_length pre text rest
  text := by rw [asciiText, String.toList_ofList]
  number h := by rw [hnumber h]
  atSpan := by
    have hslice := Text.At.slice ⟨pre, (rfl : pre ++ (text ++ rest) = pre ++ (text ++ rest)), rfl⟩
    rw [String.toList_ofList]
    exact hslice

theorem tokensFrom_twins {source : Text} (fuel : Nat) (newline regex : Bool) {pre : Text}
    (hfuel : cs.length ≤ fuel) (hsource : source = pre ++ cs)
    (hnum : ∀ t ∈ tokensFrom fuel pre.size newline regex cs, t.endsNumber source = true) :
    List.Forall₂ (Twin (Ascii.ofText source))
      (tokensFrom fuel pre.length newline regex (cs.map asciiChar))
      (tokensFrom fuel pre.size newline regex cs) := by
  induction fuel generalizing newline regex pre cs with
  | zero =>
    obtain rfl : cs = [] := List.length_eq_zero_iff.mp (by omega)
    rw [List.append_nil] at hsource
    exact hsource ▸ .cons (twin_endOfText source newline) .nil
  | succ fuel ih =>
    cases cs with
    | nil =>
      rw [List.append_nil] at hsource
      exact hsource ▸ .cons (twin_endOfText source newline) .nil
    | cons c cs =>
      obtain ⟨hpos, -⟩ := isLexeme_lexemeAt regex c cs
      rw [tokensFrom] at hnum
      generalize hfound : lexemeAt regex (c :: cs) = found at hpos hnum
      obtain ⟨kind, n⟩ := found
      have hlen : ((c :: cs).drop n).length ≤ fuel := by
        simp only [List.length_drop, List.length_cons] at hfuel ⊢
        omega
      have hpre : source = (pre ++ (c :: cs).take n) ++ (c :: cs).drop n := by
        rw [List.append_assoc, List.take_append_drop, hsource]
      have hlex : lexemeAt regex ((c :: cs).map asciiChar) = (kind, n) := by
        rw [← hfound]
        refine lexemeAt_map regex fun hnumber => ?_
        rw [hfound] at hnumber ⊢
        obtain rfl : kind = some .number := hnumber
        have hends := hnum _ (.head _)
        have hdrop : Text.drop? (pre.size + Text.size ((c :: cs).take n)) source =
            some ((c :: cs).drop n) := by
          rw [hpre, ← Text.size_append]
          exact Text.drop?_size_append _ _
        rw [endsNumber, hdrop] at hends
        intro d hd
        simpa [Option.mem_def.mp hd] using hends
      rw [List.map_cons, tokensFrom, tokensFrom, ← List.map_cons, hlex, hfound]
      simp only [← List.map_take, ← List.map_drop, Ascii.size_map]
      have hrest {newline regex : Bool} (hnum : ∀ t ∈ tokensFrom fuel
          (pre.size + Text.size ((c :: cs).take n)) newline regex ((c :: cs).drop n),
          t.endsNumber source = true) :
          List.Forall₂ (Twin (Ascii.ofText source))
            (tokensFrom fuel (pre.length + ((c :: cs).take n).length) newline regex
              (((c :: cs).drop n).map asciiChar))
            (tokensFrom fuel (pre.size + Text.size ((c :: cs).take n)) newline regex
              ((c :: cs).drop n)) := by
        rw [← List.length_append, ← Text.size_append]
        rw [← Text.size_append] at hnum
        exact ih newline regex hlen hpre hnum
      split
      · exact hrest hnum
      · exact hrest hnum
      · next kind hkind =>
        have hregex : allowsRegexAfter kind (String.ofList (((c :: cs).take n).map asciiChar)) =
            allowsRegexAfter kind (String.ofList ((c :: cs).take n)) := by
          rw [← allowsRegexAfter_asciiText kind (String.ofList ((c :: cs).take n)), asciiText,
            String.toList_ofList]
        have hnumber : kind = .number → ((c :: cs).take n).map asciiChar = (c :: cs).take n := by
          rintro rfl
          refine (List.map_congr_left fun d hd => ?_).trans (List.map_id _)
          exact asciiChar_of_lt (lt_of_mem_lexeme (lexeme_of_lexemeAt hfound (by simp)) hd)
        rw [hregex]
        simp only at hnum
        refine .cons ?_ (hrest fun t ht => hnum t (.tail _ ht))
        have htwin := twin_mk pre ((c :: cs).drop n) kind newline hnumber
        rwa [List.take_append_drop, ← hsource] at htwin

/-- The tokens of a script and of its ASCII form are the same, one by one. -/
theorem tokenize_twins {source : Text} (hnum : (tokenize source).all (endsNumber source) = true) :
    List.Forall₂ (Twin (Ascii.ofText source)) (tokenize (Ascii.ofText source).text)
      (tokenize source) := by
  have htwins := tokensFrom_twins source.length false true (Nat.le_refl _) (List.nil_append source).symm
    (List.all_eq_true.mp hnum)
  have hlength : (Ascii.ofText source).text.length = source.length := List.length_map _
  rw [tokenize, hlength]
  exact htwins

end Token
end SfcTsx.Script
