import SfcTsx.Proofs.Script.Literals
import SfcTsx.Script.Tolerant.Cursor
import Mathlib.Logic.Basic

namespace SfcTsx.Script

variable {n offset : Nat} {source : Text} {k : TokenKind} {regex : Bool} {c : Char} {cs : Text} {kind : Option TokenKind} {p : Char → Bool}

namespace Token

theorem runLength_pos (h : p c = true) (cs : Text) : 0 < runLength p (c :: cs) := by
  rw [runLength, if_pos h]
  exact Nat.succ_pos _

theorem mem_take_runLength (h : c ∈ cs.take (runLength p cs)) : p c = true := by
  induction cs with
  | nil => simp at h
  | cons d cs ih =>
    by_cases hd : p d = true
    · simp only [runLength, hd, if_true, List.take_succ_cons, List.mem_cons] at h
      rcases h with rfl | h
      · exact hd
      · exact ih h
    · simp [runLength, hd] at h

theorem head?_drop_runLength (h : c ∈ (cs.drop (runLength p cs)).head?) : p c = false := by
  induction cs with
  | nil => simp at h
  | cons d cs ih =>
    by_cases hd : p d = true
    · exact ih (by simpa [runLength, hd] using h)
    · obtain rfl : d = c := by simpa [runLength, hd] using h
      simpa using hd

theorem commentLength_cons (c : Char) (cs : Text) : commentLength (c :: cs) =
      if c = '*' ∧ cs.head? = some '/' then some 2 else (commentLength cs).map (· + 1) := by
  rw [commentLength.eq_def]
  simp only
  split
  · simp
  · next hnot =>
    rw [if_neg]
    rintro ⟨rfl, hslash⟩
    obtain ⟨rest, rfl⟩ := List.head?_eq_some_iff.mp hslash
    exact hnot rest rfl rfl

theorem exists_of_commentLength (h : commentLength cs = some n) :
    ∃ body rest, cs = body ++ '*' :: '/' :: rest ∧ n = body.length + 2 ∧ ¬ ['*', '/'] <:+: body := by
  induction cs generalizing n with
  | nil => cases h
  | cons c cs ih =>
    rw [commentLength_cons] at h
    split at h
    next hend =>
      obtain ⟨rfl, hslash⟩ := hend
      obtain ⟨rest, rfl⟩ := List.head?_eq_some_iff.mp hslash
      exact ⟨[], rest, rfl, (Option.some.inj h).symm, by simp⟩
    next hmore =>
      obtain ⟨m, hm, rfl⟩ := Option.map_eq_some_iff.mp h
      obtain ⟨body, rest, rfl, rfl, hbody⟩ := ih hm
      refine ⟨c :: body, rest, rfl, rfl, fun hinfix => ?_⟩
      rcases List.infix_cons_iff.mp hinfix with ⟨u, hu⟩ | hinfix
      · obtain ⟨rfl, rfl⟩ : '*' = c ∧ '/' :: u = body := by simpa using hu
        exact hmore ⟨rfl, rfl⟩
      · exact hbody hinfix

theorem numberLength_pos (h : c.isDigit = true) (cs : Text) : 0 < numberLength (c :: cs) := by
  have hrun : 0 < runLength isNumberPart (c :: cs) := runLength_pos (by simp [isNumberPart, h]) cs
  unfold numberLength
  simp only
  split
  · omega
  · exact hrun

/-- What is there, if not blank, is a piece of text with a kind of its own. -/
structure IsLexeme (lexeme : Option TokenKind × Nat) : Prop where
  pos : 0 < lexeme.2
  kind : lexeme.1 ≠ some .endOfText

theorem isLexeme_fixed (cs : Text) : IsLexeme (some (fixedLexeme cs).1, (fixedLexeme cs).2) := by
  have hall : ∀ entry ∈ fixed, 0 < entry.1.length ∧ entry.2 ≠ .endOfText := by decide +kernel
  unfold fixedLexeme
  split
  next spelling kind hfind =>
    obtain ⟨hpos, hkind⟩ := hall _ (List.mem_of_find?_eq_some hfind)
    exact ⟨hpos, by simpa using hkind⟩
  next => exact ⟨Nat.one_pos, by simp⟩

theorem isLexeme_lexeme (c : Char) (cs : Text) : IsLexeme (lexeme (c :: cs)) := by
  have hfixed := isLexeme_fixed (c :: cs)
  unfold lexeme
  simp only
  split
  · exact ⟨Nat.succ_pos _, by simp⟩
  split
  · exact ⟨Nat.one_pos, by simp⟩
  split
  · exact ⟨Nat.succ_pos _, by simp⟩
  split
  next hdigit => exact ⟨numberLength_pos hdigit cs, by simp⟩
  split
  · refine ⟨Nat.succ_pos _, ?_⟩
    simp only
    split <;> simp
  split
  · exact ⟨Nat.succ_pos _, by simp⟩
  split
  · exact ⟨Nat.succ_pos _, by simp⟩
  · split
    · exact ⟨Nat.succ_pos _, by simp⟩
    · exact hfixed
  · split
    · exact ⟨Nat.succ_pos _, by simp⟩
    · exact hfixed
  · exact hfixed

theorem isLexeme_lexemeAt (regexAllowed : Bool) (c : Char) (cs : Text) :
    IsLexeme (lexemeAt regexAllowed (c :: cs)) := by
  have h := isLexeme_lexeme c cs
  unfold lexemeAt
  split
  next kind n heq =>
    rw [heq] at h
    split
    · split
      next n hn =>
        rw [regexChars?_cons] at hn
        obtain ⟨m, -, rfl⟩ := Option.map_eq_some_iff.mp hn
        exact ⟨Nat.succ_pos _, by simp⟩
      · exact h
    · exact h
  next => exact h

/-- Blanks and comments, with `after` behind them. -/
inductive Skipped (after : Text) : Text → Prop
  | nil : Skipped after []
  | blanks {s t : Text} (hs : ∀ c ∈ s, c ∈ [' ', '\t', '\r', '\x0c', '\n']) (ht : Skipped after t) :
      Skipped after (s ++ t)
  | lineComment {body t : Text} (hbody : '\n' ∉ body) (hend : ∀ c ∈ (t ++ after).head?, c = '\n')
      (ht : Skipped after t) : Skipped after ('/' :: '/' :: (body ++ t))
  | blockComment {body t : Text} (hbody : ¬ ['*', '/'] <:+: body) (ht : Skipped after t) :
      Skipped after ('/' :: '*' :: (body ++ '*' :: '/' :: t))

theorem fixedLexeme_kind (cs : Text) :
    (fixedLexeme cs).1 ∉ [TokenKind.newline, .number, .string, .template, .regex, .endOfText] := by
  have hall : ∀ entry ∈ fixed,
      entry.2 ∉ [TokenKind.newline, .number, .string, .template, .regex, .endOfText] := by
    decide +kernel
  unfold fixedLexeme
  split
  next hfind => exact hall _ (List.mem_of_find?_eq_some hfind)
  next => decide

theorem Skipped.lexeme {after t : Text} (h : Token.lexeme (c :: cs) = (kind, n))
    (hkind : kind = none ∨ kind = some .newline) (hdrop : (c :: cs).drop n = t ++ after)
    (ht : Skipped after t) : Skipped after ((c :: cs).take n ++ t) := by
  have htoken {k : TokenKind} {m : Nat} (hk : k ≠ .newline) (h : (some k, m) = (kind, n)) :
      Skipped after ((c :: cs).take n ++ t) := by
    obtain ⟨rfl, rfl⟩ := Prod.mk.inj h
    simp [hk] at hkind
  have hfixed : (fixedLexeme (c :: cs)).1 ≠ .newline := fun heq =>
    fixedLexeme_kind (c :: cs) (by rw [heq]; decide)
  unfold Token.lexeme at h
  simp only at h
  split at h
  next hblank =>
    obtain ⟨rfl, rfl⟩ := Prod.mk.inj h
    refine .blanks (fun d hd => ?_) ht
    have hd : isBlank d = true := by
      rw [List.take_succ_cons, List.mem_cons] at hd
      rcases hd with rfl | hd
      · exact hblank
      · exact mem_take_runLength hd
    simp only [isBlank, Bool.or_eq_true, beq_iff_eq] at hd
    grind
  split at h
  next hnewline =>
    obtain ⟨rfl, rfl⟩ := Prod.mk.inj h
    exact .blanks (by simp [hnewline]) ht
  split at h
  · exact htoken (by decide) h
  split at h
  · exact htoken (by decide) h
  split at h
  · exact htoken (by split <;> decide) h
  split at h
  · exact htoken (by decide) h
  split at h
  · obtain ⟨rfl, rfl⟩ := Prod.mk.inj h
    rw [List.take_succ_cons, List.take_succ_cons, List.cons_append, List.cons_append]
    refine .lineComment (fun hmem => ?_) ?_ ht
    · simpa using mem_take_runLength hmem
    · intro d hd
      rw [← hdrop] at hd
      simpa using head?_drop_runLength (p := (· != '\n')) hd
  · split at h
    next hm =>
      obtain ⟨rfl, rfl⟩ := Prod.mk.inj h
      obtain ⟨body, rest, rfl, rfl, hbody⟩ := exists_of_commentLength hm
      have htake : List.take (body.length + 2 + 2) ('/' :: '*' :: (body ++ '*' :: '/' :: rest)) ++ t =
          '/' :: '*' :: (body ++ '*' :: '/' :: t) := by
        simp [List.take_append, List.take_of_length_le]
      rw [htake]
      exact .blockComment hbody ht
    · exact htoken hfixed h
  · split at h
    · exact htoken (by decide) h
    · exact htoken hfixed h
  · exact htoken hfixed h

/-- What stands at the start of a text that begins neither with a blank, a line break, a letter, a digit
nor a quote. -/
def signLexeme (c : Char) (cs : Text) : Option TokenKind × Nat :=
  let sign := (some (fixedLexeme (c :: cs)).1, (fixedLexeme (c :: cs)).2)
  if c = '/' ∧ cs.head? = some '/' then (none, runLength (· != '\n') cs.tail + 2)
  else if c = '/' ∧ cs.head? = some '*' then
    ((commentLength cs.tail).map fun n => (none, n + 2)).getD sign
  else if c = '.' ∧ cs.head?.any Char.isDigit = true then
    (some .number, runLength isNumberPart cs.tail + 2)
  else sign

def stringLexeme (quote : Char) (cs : Text) : Option TokenKind × Nat :=
  (some (if (stringLength quote cs).2 then .string else .invalid), (stringLength quote cs).1 + 1)

theorem lexeme_cons (c : Char) (cs : Text) : lexeme (c :: cs) =
      if isBlank c then (none, runLength isBlank cs + 1)
      else if c = '\n' then (some .newline, 1)
      else if isWordStart c then (some .word, runLength isWordPart cs + 1)
      else if c.isDigit then (some .number, numberLength (c :: cs))
      else if c = '"' || c = '\'' then
        stringLexeme c cs
      else if c = '\x60' then (some .template, lengthIn (templateEnd (Text.byteChars cs)) cs + 1)
      else signLexeme c cs := by
  rw [lexeme]
  refine if_congr Iff.rfl rfl (if_congr Iff.rfl rfl (if_congr Iff.rfl rfl (if_congr Iff.rfl rfl ?_)))
  refine if_congr Iff.rfl rfl (if_congr Iff.rfl rfl ?_)
  rw [signLexeme]
  generalize fixedLexeme (c :: cs) = sign
  obtain ⟨kind, n⟩ := sign
  dsimp only
  split
  · simp
  · split <;> simp [*]
  · next d rest => by_cases hd : d.isDigit = true <;> simp [hd]
  · next hline hblock hdot =>
    rw [if_neg, if_neg, if_neg]
    · rintro ⟨rfl, hdigit⟩
      cases cs with
      | nil => cases hdigit
      | cons d rest => exact hdot d rest rfl rfl
    · rintro ⟨rfl, hstar⟩
      obtain ⟨rest, rfl⟩ := List.head?_eq_some_iff.mp hstar
      exact hblock rest rfl rfl
    · rintro ⟨rfl, hslash⟩
      obtain ⟨rest, rfl⟩ := List.head?_eq_some_iff.mp hslash
      exact hline rest rfl rfl

theorem signLexeme_kind (h : signLexeme c cs = (some k, n)) :
    k ∉ [TokenKind.string, .template, .regex] := by
  have hfixed {m : Nat} (heq : (some (fixedLexeme (c :: cs)).1, m) = (some k, n)) :
      k ∉ [TokenKind.string, .template, .regex] := by
    obtain rfl := Option.some.inj (Prod.mk.inj heq).1
    have hkind := fixedLexeme_kind (c :: cs)
    simp only [List.mem_cons, List.not_mem_nil, or_false, not_or] at hkind ⊢
    exact ⟨hkind.2.2.1, hkind.2.2.2.1, hkind.2.2.2.2.1⟩
  unfold signLexeme at h
  simp only at h
  split at h
  · cases h
  split at h
  · cases hcomment : commentLength cs.tail with
    | none => exact hfixed (by simpa [hcomment] using h)
    | some m => simp [hcomment] at h
  split at h
  · obtain rfl := Option.some.inj (Prod.mk.inj h).1
    decide
  · exact hfixed h

theorem lexeme_literal (h : lexeme (c :: cs) = (some k, n)) :
    (k = .template → c = '\x60' ∧ n = lengthIn (templateEnd (Text.byteChars cs)) cs + 1) ∧
      (k = .string → c.toNat < 128 ∧ stringLength c cs = (n - 1, true) ∧ n = (stringLength c cs).1 + 1) ∧
      k ≠ .regex := by
  rw [lexeme_cons] at h
  split at h
  · cases h
  split at h
  · cases h
    simp
  split at h
  · cases h
    simp
  split at h
  · cases h
    simp
  split at h
  next hquote =>
    have hlt : c.toNat < 128 := by
      simp only [Bool.or_eq_true, decide_eq_true_eq] at hquote
      rcases hquote with rfl | rfl <;> decide
    cases hclosed : (stringLength c cs).2 with
    | false =>
      simp only [stringLexeme, hclosed] at h
      cases h
      simp
    | true =>
      simp only [stringLexeme, hclosed] at h
      cases h
      exact ⟨nofun, fun _ => ⟨hlt, Prod.ext rfl hclosed, rfl⟩, nofun⟩
  split at h
  next htick =>
    cases h
    exact ⟨fun _ => ⟨htick, rfl⟩, nofun, nofun⟩
  · have hkind := signLexeme_kind h
    simp only [List.mem_cons, List.not_mem_nil, or_false, not_or] at hkind
    exact ⟨fun heq => absurd heq hkind.2.1, fun heq => absurd heq hkind.1, hkind.2.2⟩

/-- A literal ends where the scanner of the bytes does that begins behind its first one. A slash is no
regular expression if one may not stand there, or has no end. -/
structure Scanned (bytes : Text) (regexAllowed : Bool) (t : Token) : Prop where
  regex : t.kind = .regex → regexAllowed = true ∧
    (regexLength false (bytes.drop (t.span.start + 1))).map (t.span.start + 1 + ·) = some t.span.stop
  slash : t.kind = .slash ∨ t.kind = .slashEquals → regexAllowed = true →
    regexLength false (bytes.drop (t.span.start + 1)) = none
  template : t.kind = .template →
    t.span.start + 1 + templateEnd (bytes.drop (t.span.start + 1)) = t.span.stop
  string : t.kind = .string → ∃ quote ∈ bytes[t.span.start]?,
    (closedLength quote (bytes.drop (t.span.start + 1))).map (t.span.start + 1 + ·) = some t.span.stop

theorem lexemeAt_cases (h : lexemeAt regex (c :: cs) = (some k, n)) :
    (regex = true ∧ k = .regex ∧ ∃ m, regexLength false cs = some m ∧ n = min m cs.length + 1) ∨
      (lexeme (c :: cs) = (some k, n) ∧
        (k = .slash ∨ k = .slashEquals → regex = true → regexLength false cs = none)) := by
  unfold lexemeAt at h
  split at h
  next found m heq =>
    rw [regexChars?_cons] at h
    split at h
    next hslash =>
      split at h
      next chars hchars =>
        obtain ⟨m, hm, rfl⟩ := Option.map_eq_some_iff.mp hchars
        obtain ⟨hk, rfl⟩ := Prod.mk.inj h
        simp only [Bool.and_eq_true] at hslash
        exact .inl ⟨hslash.2, (Option.some.inj hk).symm, m, hm, rfl⟩
      next hnone => exact .inr ⟨heq.trans h, fun _ _ => Option.map_eq_none_iff.mp hnone⟩
    next hslash =>
      refine .inr ⟨heq.trans h, fun hk hregex => absurd ?_ hslash⟩
      obtain rfl := Option.some.inj (Prod.mk.inj h).1
      simpa [hregex] using hk
  next hnone =>
    exact .inr ⟨h, fun _ _ => absurd h (hnone k n)⟩

theorem Scanned.lexemeAt {bytes : Text} {newline : Bool}
    {text : String} (h : Token.lexemeAt regex (c :: cs) = (some k, n))
    (hbytes : bytes.drop offset = Text.byteChars (c :: cs)) :
    Scanned bytes regex
      ⟨k, ⟨offset, offset + Text.size ((c :: cs).take n)⟩, newline, text⟩ := by
  have hnext : bytes.drop (offset + 1) = (Text.byteChars (c :: cs)).tail := by
    rw [← List.drop_drop, hbytes, List.drop_one]
  have hregex := regexLength_tail c cs
  rcases lexemeAt_cases h with ⟨rfl, rfl, m, hm, rfl⟩ | ⟨hlexeme, hslash⟩
  · refine ⟨fun _ => ⟨rfl, ?_⟩, by simp, nofun, nofun⟩
    rw [hm] at hregex
    obtain ⟨size, hsize, hstop⟩ : ∃ size, _ ∧ size + 1 = Text.size ((c :: cs).take (m + 1)) :=
      Option.map_eq_some_iff.mp hregex
    simp only [hnext, hsize, Option.map_some, Option.some.injEq]
    rw [List.take_succ_cons, ← List.take_eq_take_min, ← List.take_succ_cons, ← hstop]
    omega
  · obtain ⟨htemplate, hstring, hne⟩ := lexeme_literal hlexeme
    refine ⟨fun hk => absurd hk hne, fun hk hallowed => ?_, fun hk => ?_, fun hk => ?_⟩
    · rw [hslash hk hallowed] at hregex
      simpa [hnext] using hregex
    · obtain ⟨rfl, rfl⟩ := htemplate hk
      rw [Text.byteChars_ascii (by decide), List.tail_cons] at hnext
      simp only [hnext, templateEnd_byteChars, lengthIn_size_take, List.take_succ_cons,
        List.length_take, ← List.take_eq_take_min, Text.size_cons, Nat.add_assoc]
      rfl
    · obtain ⟨hlt, hclosed, hn⟩ := hstring hk
      rw [Text.byteChars_ascii hlt] at hbytes hnext
      have hquote : bytes[offset]? = some c := by
        rw [← List.head?_drop, hbytes, List.head?_cons]
      have hlength : closedLength c cs = some (n - 1) := by simp [closedLength, hclosed]
      refine ⟨c, hquote, ?_⟩
      rw [List.tail_cons] at hnext
      obtain ⟨n, rfl⟩ : ∃ m, n = m + 1 := ⟨_, hn⟩
      have hstop : closedLength c (Text.byteChars cs) = some (Text.size (cs.take n)) :=
        (closedLength_agrees hlt cs).trans (by rw [hlength]; rfl)
      simp [hnext, hstop, Text.utf8Size_of_lt hlt, Nat.add_assoc]

/-- The text between two offsets is skipped. -/
def Gap (source : Text) (start stop : Nat) : Prop :=
  ∃ gap rest, source.At start (gap ++ rest) ∧ stop = start + gap.size ∧ Skipped rest gap

/-- A token stands in the source and ends where it should. -/
def Stands (source : Text) (regexAllowed : Bool) (t : Token) : Prop :=
  t.span.Spells source t.text.toList ∧ t.Scanned source.byteChars regexAllowed

/-- The tokens of a source from an offset on, each behind a gap. -/
inductive Laid (source : Text) : Nat → Bool → List Token → Prop
  | last {offset : Nat} {regex : Bool} {t : Token} (hkind : t.kind = .endOfText)
      (hspan : t.span = .empty source.size) (hstands : t.Stands source regex)
      (hgap : Gap source offset source.size) : Laid source offset regex [t]
  | cons {offset : Nat} {regex : Bool} {t : Token} {ts : List Token} (hkind : t.kind ≠ .endOfText)
      (hgap : Gap source offset t.span.start) (hlt : t.span.start < t.span.stop)
      (hstands : t.Stands source regex)
      (hrest : Laid source t.span.stop (allowsRegexAfter t.kind t.text) ts) :
      Laid source offset regex (t :: ts)

theorem Gap.nil {text : Text} (h : source.At offset text) :
    Gap source offset offset := ⟨[], text, h, rfl, .nil⟩

theorem Gap.lexeme {stop : Nat} (h : Token.lexeme (c :: cs) = (kind, n))
    (hkind : kind = none ∨ kind = some .newline) (hat : source.At offset (c :: cs))
    (hgap : Gap source (offset + Text.size ((c :: cs).take n)) stop) : Gap source offset stop := by
  obtain ⟨gap, rest, hrest, rfl, hskip⟩ := hgap
  rw [← List.take_append_drop n (c :: cs)] at hat
  have hdrop := hat.skip.unique hrest
  rw [hdrop] at hat
  refine ⟨(c :: cs).take n ++ gap, rest, by simpa using hat, ?_, .lexeme h hkind hdrop hskip⟩
  rw [Text.size_append, Nat.add_assoc]

theorem Laid.lexeme {ts : List Token}
    (h : Token.lexeme (c :: cs) = (kind, n)) (hkind : kind = none ∨ kind = some .newline)
    (hat : source.At offset (c :: cs))
    (hlaid : Laid source (offset + Text.size ((c :: cs).take n)) regex ts) :
    Laid source offset regex ts := by
  cases hlaid with
  | last hend hspan hstands hgap => exact .last hend hspan hstands (hgap.lexeme h hkind hat)
  | cons hne hgap hlt hstands hrest => exact .cons hne (hgap.lexeme h hkind hat) hlt hstands hrest

theorem lexeme_of_lexemeAt (h : lexemeAt regex cs = (kind, n))
    (hkind : kind ≠ some .regex) : lexeme cs = (kind, n) := by
  unfold lexemeAt at h
  split at h
  next found m heq =>
    split at h
    · split at h
      · exact absurd (congrArg Prod.fst h).symm hkind
      · rw [heq, h]
    · rw [heq, h]
  next => exact h

theorem laid_end (source : Text) (newline regex : Bool) :
    Laid source source.size regex [⟨.endOfText, .empty source.size, newline, ""⟩] := by
  have hat : source.At source.size [] := .size source
  refine .last rfl rfl ⟨⟨rfl, [], hat⟩, ⟨nofun, ?_, nofun, nofun⟩⟩ (.nil hat)
  simp

theorem tokensFrom_laid {fuel : Nat} {text : Text} (hfuel : text.length ≤ fuel) (hat : source.At offset text) (newline regex : Bool) :
    Laid source offset regex (tokensFrom fuel offset newline regex text) := by
  induction fuel generalizing offset newline regex text with
  | zero =>
    obtain rfl : text = [] := List.length_eq_zero_iff.mp (by omega)
    obtain rfl : offset = source.size := hat.le_size
    exact laid_end source newline regex
  | succ fuel ih =>
    cases text with
    | nil =>
      obtain rfl : offset = source.size := hat.le_size
      exact laid_end source newline regex
    | cons c cs =>
      obtain ⟨hpos, hkind⟩ := isLexeme_lexemeAt regex c cs
      rw [tokensFrom]
      generalize hlex : lexemeAt regex (c :: cs) = found at hpos hkind
      obtain ⟨kind, n⟩ := found
      simp only at hpos hkind ⊢
      have hlen : ((c :: cs).drop n).length ≤ fuel := by
        simp only [List.length_drop, List.length_cons] at hfuel ⊢
        omega
      have hnext : source.At (offset + Text.size ((c :: cs).take n)) ((c :: cs).drop n) := by
        rw [← List.take_append_drop n (c :: cs)] at hat
        exact hat.skip
      split
      · exact (ih hlen hnext ..).lexeme (lexeme_of_lexemeAt hlex (by simp)) (.inl rfl) hat
      · exact (ih hlen hnext ..).lexeme (lexeme_of_lexemeAt hlex (by simp)) (.inr rfl) hat
      next found _ =>
        have htake : (c :: cs).take n ≠ [] := by
          simp only [ne_eq, List.take_eq_nil_iff, reduceCtorEq, or_false]
          omega
        have hsize := Text.size_pos htake
        have hspells : Span.Spells ⟨offset, offset + Text.size ((c :: cs).take n)⟩ source
            (String.ofList ((c :: cs).take n)).toList := by
          rw [String.toList_ofList]
          exact ⟨rfl, (c :: cs).drop n, by rwa [List.take_append_drop]⟩
        exact .cons (by simpa using hkind) (.nil hat) (by simp only; omega)
          ⟨hspells, .lexemeAt hlex (Text.drop_byteChars hat)⟩ (ih hlen hnext ..)

theorem tokenize_laid (source : Text) : Laid source 0 true (tokenize source) :=
  tokensFrom_laid (Nat.le_refl _) (.zero source) false true

theorem Gap.le {a b : Nat} (h : Gap source a b) : a ≤ b := by
  obtain ⟨gap, rest, -, rfl, -⟩ := h
  exact Nat.le_add_right _ _

def lastStop (offset : Nat) (ts : List Token) : Nat := ts.foldl (fun _ t => t.span.stop) offset

/-- A regular expression may stand behind the last of the tokens, or else if `regex` says so. -/
def regexAfter (regex : Bool) (ts : List Token) : Bool :=
  ts.foldl (fun _ t => allowsRegexAfter t.kind t.text) regex

section laid
variable {source : Text} {offset : Nat} {regex : Bool} {ts : List Token}
  (h : Laid source offset regex ts)
include h

theorem Laid.length_pos : 0 < ts.length := by
  cases h <;> simp

theorem Laid.exists_last :
    ∃ init last, ts = init ++ [last] ∧ last.kind = .endOfText ∧ last.span = .empty source.size ∧
      ∀ t ∈ init, t.kind ≠ .endOfText ∧ t.span.start < t.span.stop := by
  induction h with
  | @last _ _ t hkind hspan _ _ => exact ⟨[], t, rfl, hkind, hspan, by simp⟩
  | @cons _ _ t _ hkind _ hlt _ _ ih =>
    obtain ⟨init, last, rfl, hlast, hspan, hinit⟩ := ih
    exact ⟨t :: init, last, rfl, hlast, hspan, List.forall_mem_cons.mpr ⟨⟨hkind, hlt⟩, hinit⟩⟩

theorem Laid.isBoundary_offset : source.isBoundary offset = true := by
  cases h with
  | last _ _ _ hgap => exact hgap.choose_spec.choose_spec.1.isBoundary
  | cons _ hgap _ _ _ => exact hgap.choose_spec.choose_spec.1.isBoundary

theorem Laid.placed {t : Token} (ht : t ∈ ts) :
    offset ≤ t.span.start ∧ t.span.start ≤ t.span.stop ∧ source.isBoundary t.span.start = true ∧
      source.isBoundary t.span.stop = true := by
  induction h with
  | last _ hspan _ hgap =>
    have hend := (Text.At.size source).isBoundary
    obtain rfl := List.mem_singleton.mp ht
    rw [hspan]
    exact ⟨hgap.le, Nat.le_refl _, hend, hend⟩
  | cons _ hgap hlt _ hrest ih =>
    have hle := hgap.le
    rcases List.mem_cons.mp ht with rfl | ht
    · obtain ⟨gap, rest, hat, hstart, -⟩ := hgap
      have hboundary := hat.skip.isBoundary
      rw [← hstart] at hboundary
      exact ⟨hle, Nat.le_of_lt hlt, hboundary, hrest.isBoundary_offset⟩
    · obtain ⟨hstart, hplaced⟩ := ih ht
      exact ⟨by omega, hplaced⟩

theorem Laid.pairwise : ts.Pairwise fun a b => a.span.stop ≤ b.span.start := by
  induction h with
  | last => simp
  | cons _ _ _ _ hrest ih => exact .cons (fun _ ht => (hrest.placed ht).1) ih

theorem Laid.gap {front back : List Token} {t : Token} (hts : ts = front ++ t :: back) :
    Gap source (lastStop offset front) t.span.start ∧ t.Stands source (regexAfter regex front) := by
  induction h generalizing front with
  | @last _ _ u _ hspan hstands hgap =>
    obtain ⟨rfl, hts⟩ | ⟨-, hts⟩ := List.singleton_eq_append_iff.mp hts
    · obtain ⟨rfl, -⟩ := List.cons.inj hts
      refine ⟨?_, hstands⟩
      rw [hspan]
      exact hgap
    · cases hts
  | cons _ hgap _ hstands _ ih =>
    cases front with
    | nil =>
      obtain ⟨rfl, -⟩ := List.cons.inj hts
      exact ⟨hgap, hstands⟩
    | cons u front =>
      obtain ⟨rfl, rfl⟩ := List.cons.inj hts
      exact ih rfl

end laid

/-- The tokens cover their source: they stand one behind the other, none is empty but the end of the text,
and all that they leave out is blanks and comments. Their texts are those of the source, and the literals
among them end where the scanners of the bytes do, on a boundary. -/
theorem tokenize_covers (source : Text) :
    (∃ init last, tokenize source = init ++ [last] ∧ last.kind = .endOfText ∧
      last.span = .empty source.size ∧
      ∀ t ∈ init, t.kind ≠ .endOfText ∧ t.span.start < t.span.stop) ∧
    (∀ t ∈ tokenize source,
      source.isBoundary t.span.start = true ∧ source.isBoundary t.span.stop = true) ∧
    (tokenize source).Pairwise (fun a b => a.span.stop ≤ b.span.start) ∧
    ∀ front t back, tokenize source = front ++ t :: back →
      Gap source (lastStop 0 front) t.span.start ∧ t.Stands source (regexAfter true front) := by
  have h := tokenize_laid source
  exact ⟨h.exists_last, fun _ ht => (h.placed ht).2.2, h.pairwise, fun _ _ _ hts => h.gap hts⟩

end Token

namespace Tolerant.Input

/-- The tokens of an input lie in order, and only the last one is the end of the text. -/
class Lined (input : Input) : Prop where
  kind_iff : ∀ i ≤ input.last, (input.tokenAt i).kind = .endOfText ↔ i = input.last
  span_le : ∀ i, (input.tokenAt i).span.start ≤ (input.tokenAt i).span.stop
  stop_le : ∀ i, (input.tokenAt i).span.stop ≤ input.source.size
  next_le : ∀ i < input.last, (input.tokenAt i).span.stop ≤ (input.tokenAt (i + 1)).span.start
  spells : ∀ i, (input.tokenAt i).span.Spells input.source (input.tokenAt i).text.toList
  text_last : (input.tokenAt input.last).text.toList = []

instance lined_ofText (dialect : Dialect) (source : Text) : (ofText dialect source).Lined := by
  have h := Token.tokenize_laid source
  obtain ⟨init, last, hts, hkind, hspan, hinit⟩ := h.exists_last
  have hlast : (ofText dialect source).last = init.length := by simp [Input.last, ofText, hts]
  have htoken (i : Nat) (hi : i < (Token.tokenize source).length) :
      (ofText dialect source).tokenAt i = (Token.tokenize source)[i] := by
    have hmin : min i init.length = i := Nat.min_eq_left (by simpa [hts, Nat.lt_succ_iff] using hi)
    rw [tokenAt, hlast, hmin]
    simp [ofText, hi]
  have hlen : (Token.tokenize source).length = init.length + 1 := by simp [hts]
  have hmem (i : Nat) : (ofText dialect source).tokenAt i ∈ Token.tokenize source := by
    have hsame : (ofText dialect source).tokenAt i = (ofText dialect source).tokenAt (min i init.length) := by
      simp [tokenAt, hlast]
    rw [hsame, htoken _ (by omega)]
    exact List.getElem_mem _
  have hspells (i : Nat) : ((ofText dialect source).tokenAt i).span.Spells source
      ((ofText dialect source).tokenAt i).text.toList := by
    obtain ⟨front, back, hsplit⟩ := List.append_of_mem (hmem i)
    exact (h.gap hsplit).2.1
  refine ⟨fun i hi => ?_, fun i => (h.placed (hmem i)).2.1, fun i => ?_, fun i hi => ?_, hspells, ?_⟩
  · rw [htoken i (by omega), hlast]
    rcases Nat.lt_or_eq_of_le (hlast ▸ hi) with hlt | rfl
    · simp only [hts, List.getElem_append_left hlt, (hinit _ (List.getElem_mem hlt)).1, false_iff]
      omega
    · simp [hts, hkind]
  · exact Text.le_size_of_isBoundary (h.placed (hmem i)).2.2.2
  · rw [htoken i (by omega), htoken (i + 1) (by omega)]
    exact List.pairwise_iff_getElem.mp h.pairwise i (i + 1) _ _ (Nat.lt_succ_self i)
  · have htext := (hspells (ofText dialect source).last).1
    rw [htoken _ (by omega)] at htext ⊢
    simp only [hlast, hts, List.getElem_concat_length, hspan, Span.empty] at htext ⊢
    exact Text.size_eq_zero.mp (by omega)

end Tolerant.Input
end SfcTsx.Script
