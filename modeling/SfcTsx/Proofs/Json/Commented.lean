import SfcTsx.Json.Commented
import SfcTsx.Proofs.Text
import Mathlib.Data.List.Infix

namespace SfcTsx.Json

variable {c : Char} {body : Text}

/-- The text between the quotes of a string: a backslash takes the next character with it. -/
def isBody : Text → Bool
  | [] => true
  | '\\' :: _ :: t => isBody t
  | c :: t => c != '"' && c != '\\' && isBody t

/-- A character of a number, a word or a mark, other than those that `Part` has apart. -/
def isMark (c : Char) : Bool := !Text.isSpace c && !(['"', '/', ',', '}', ']'].contains c)

/-- A part of a text. A comment to the end of a line holds the line feed. -/
inductive Part where
  | blank (c : Char) (h : Text.isSpace c = true)
  | string (body : Text) (h : isBody body = true)
  | mark (c : Char) (h : isMark c = true)
  | comma
  | close (c : Char) (h : c = '}' ∨ c = ']')
  | line (body : Text) (h : '\n' ∉ body)
  | block (body : Text) (h : ¬ ['*', '/'] <:+: body)

namespace Part

def text : Part → Text
  | blank c _ | mark c _ | close c _ => [c]
  | string body _ => '"' :: (body ++ ['"'])
  | comma => [',']
  | line body _ => '/' :: '/' :: (body ++ ['\n'])
  | block body _ => '/' :: '*' :: (body ++ ['*', '/'])

/-- Blanks and comments apart, the next part closes a bracket. -/
def closesNext : List Part → Bool
  | blank .. :: ps | line .. :: ps | block .. :: ps => closesNext ps
  | close .. :: _ => true
  | _ => false

/-- The text without comments and without commas in front of a closing bracket. -/
def plain : List Part → Text
  | [] => []
  | line .. :: ps => '\n' :: plain ps
  | block .. :: ps => plain ps
  | comma :: ps => if closesNext ps then plain ps else ',' :: plain ps
  | p :: ps => p.text ++ plain ps

def isStrict : List Part → Bool
  | [] => true
  | line .. :: _ | block .. :: _ => false
  | comma :: ps => !closesNext ps && isStrict ps
  | _ :: ps => isStrict ps

theorem plain_of_isStrict {ps : List Part} (h : isStrict ps = true) :
    plain ps = ps.flatMap text := by
  induction ps with
  | nil => rfl
  | cons p ps ih =>
    rw [List.flatMap_cons]
    cases p with
    | line | block => cases h
    | comma =>
      obtain ⟨hnext, hps⟩ := Bool.and_eq_true_iff.mp h
      rw [plain, if_neg (by simpa using hnext), ih hps, text, List.singleton_append]
    | _ => exact congrArg _ (ih h)

end Part

section
variable (done rest : Text)

theorem dropComma_blank (h : Text.isSpace c = true) :
    dropComma (c :: done) = c :: dropComma done := by
  simp only [dropComma, List.dropWhile_cons_of_pos h, List.takeWhile_cons_of_pos h]
  split <;> rfl

theorem dropComma_solid (h : Text.isSpace c = false) (hc : c ≠ ',') :
    dropComma (c :: done) = c :: done := by
  unfold dropComma
  rw [List.dropWhile_cons_of_neg (by simp [h])]
  split
  next heq => exact absurd (List.cons.inj heq).1 hc
  next => rfl

theorem stripFrom_plain (h : c ≠ '/') :
    stripFrom done .plain (c :: rest) =
      if c = '"' then stripFrom (c :: done) .string rest
      else if c = '}' ∨ c = ']' then stripFrom (c :: dropComma done) .plain rest
      else stripFrom (c :: done) .plain rest := by
  rw [stripFrom] <;> simp [h]

theorem stripFrom_string (h : isBody body = true) :
    stripFrom done .string (body ++ '"' :: rest) =
      stripFrom ('"' :: (body.reverse ++ done)) .plain rest := by
  fun_induction isBody body generalizing done with
  | case1 => simp [stripFrom]
  | case2 c t ih => simp [stripFrom, ih _ h]
  | case3 c t hesc ih =>
    simp only [Bool.and_eq_true, bne_iff_ne, ne_eq] at h
    rw [List.cons_append, stripFrom, if_neg h.1.1, ih _ h.2]
    · simp
    · simp [h.1.2]

theorem stripFrom_line (h : '\n' ∉ body) :
    stripFrom done .lineComment (body ++ rest) = stripFrom done .lineComment rest := by
  induction body with
  | nil => rfl
  | cons c body ih =>
    obtain ⟨hc, hbody⟩ : ¬ '\n' = c ∧ '\n' ∉ body := by simpa using h
    rw [List.cons_append, stripFrom, if_neg (Ne.symm hc), ih hbody]

theorem stripFrom_block (h : ¬ ['*', '/'] <:+: body) :
    stripFrom done .blockComment (body ++ '*' :: '/' :: rest) = stripFrom done .plain rest := by
  induction body with
  | nil => rfl
  | cons c body ih =>
    rw [List.cons_append, stripFrom, ih fun hb => h (List.infix_cons hb)]
    -- the comment does not end here
    rintro t rfl ht
    cases body with
    | nil => cases ht
    | cons d body =>
      obtain ⟨rfl, -⟩ := List.cons.inj ht
      exact h ⟨[], body, rfl⟩

end

/-- A text that is copied, whatever is `done` before it. -/
def Copies (s : Text) : Prop :=
  ∀ done rest, stripFrom done .plain (s ++ rest) = stripFrom (s.reverse ++ done) .plain rest

def Settles (s : Text) : Prop := ∀ done, dropComma (s.reverse ++ done) = s.reverse ++ done

theorem copies_char (h : Text.isSpace c = true ∨ c = ',' ∨ isMark c = true) : Copies [c] := by
  have hother : c ≠ '/' ∧ c ≠ '"' ∧ ¬ (c = '}' ∨ c = ']') := by
    rcases h with h | rfl | h
    · have hne : ∀ d, Text.isSpace d = false → c ≠ d := fun d hd hcd => by simp [hcd, hd] at h
      exact ⟨hne _ rfl, hne _ rfl, not_or.mpr ⟨hne _ rfl, hne _ rfl⟩⟩
    · decide
    · simp_all [isMark]
  intro done rest
  rw [List.singleton_append, stripFrom_plain _ _ hother.1, if_neg hother.2.1, if_neg hother.2.2]
  rfl

theorem settles_mark (h : isMark c = true) : Settles [c] := by
  simp only [isMark, Bool.and_eq_true, Bool.not_eq_true'] at h
  refine fun done => dropComma_solid done h.1 ?_
  rintro rfl
  simp at h

theorem copies_string (h : isBody body = true) : Copies ('"' :: (body ++ ['"'])) := by
  intro done rest
  rw [List.cons_append, stripFrom_plain _ _ (by decide), if_pos rfl, List.append_assoc]
  simp [stripFrom_string _ _ h]

theorem settles_string (body : Text) : Settles ('"' :: (body ++ ['"'])) := by
  intro done
  simpa using dropComma_solid _ (by decide) (by decide)

theorem stripFrom_close {c : Char} (h : c = '}' ∨ c = ']') (done rest : Text) :
    stripFrom done .plain (c :: rest) = stripFrom (c :: dropComma done) .plain rest := by
  rw [stripFrom_plain, if_neg, if_pos h]
  all_goals rcases h with rfl | rfl <;> decide

theorem dropComma_close {c : Char} (h : c = '}' ∨ c = ']') (done : Text) :
    dropComma (c :: done) = c :: done := by
  rcases h with rfl | rfl <;> exact dropComma_solid done (by decide) (by decide)

theorem stripFrom_parts (ps : List Part) (done : Text) {ending : Text}
    (hend : ∀ done, stripFrom done .plain ending = done) :
    stripFrom done .plain (ps.flatMap Part.text ++ ending) =
      (Part.plain ps).reverse ++ if Part.closesNext ps then dropComma done else done := by
  induction ps generalizing done with
  | nil => exact hend done
  | cons p ps ih =>
    rw [List.flatMap_cons, List.append_assoc]
    cases p with
    | blank c h =>
      rw [Part.text, copies_char (.inl h), ih, Part.closesNext]
      cases Part.closesNext ps <;> simp [Part.plain, Part.text, dropComma_blank _ h]
    | string body h =>
      rw [Part.text, copies_string h, ih, settles_string]
      simp [Part.plain, Part.text, Part.closesNext]
    | mark c h =>
      rw [Part.text, copies_char (.inr (.inr h)), ih, settles_mark h]
      simp [Part.plain, Part.text, Part.closesNext]
    | comma =>
      have hback : dropComma (',' :: done) = done := rfl
      rw [Part.text, copies_char (.inr (.inl rfl)), ih, Part.plain]
      cases Part.closesNext ps <;> simp [Part.closesNext, hback]
    | close c h =>
      rw [Part.text, List.singleton_append, stripFrom_close h, ih, dropComma_close h]
      simp [Part.plain, Part.text, Part.closesNext]
    | line body h =>
      have hline : stripFrom done .lineComment ('\n' :: (ps.flatMap Part.text ++ ending)) =
        stripFrom ('\n' :: done) .plain (ps.flatMap Part.text ++ ending) := rfl
      rw [Part.text, List.cons_append, List.cons_append, List.append_assoc, stripFrom, stripFrom_line _ _ h,
        List.singleton_append, hline, ih, Part.closesNext]
      cases Part.closesNext ps <;> simp [Part.plain, dropComma_blank _ (show Text.isSpace '\n' = true from rfl)]
    | block body h =>
      rw [Part.text, List.cons_append, List.cons_append, List.append_assoc, stripFrom]
      exact (stripFrom_block _ _ h).trans (ih done)

/-- Stripping takes away the comments and the commas in front of closing brackets, and nothing else. The
last comment may go to the end of the text. -/
theorem stripComments_parts (ps : List Part) :
    stripComments (ps.flatMap Part.text) = Part.plain ps ∧
      (∀ body, '\n' ∉ body →
        stripComments (ps.flatMap Part.text ++ '/' :: '/' :: body) = Part.plain ps) ∧
      (Part.isStrict ps = true → stripComments (ps.flatMap Part.text) = ps.flatMap Part.text) := by
  have hstrip (ending : Text) (hend : ∀ done, stripFrom done .plain ending = done) :
      stripComments (ps.flatMap Part.text ++ ending) = Part.plain ps := by
    have hback : dropComma [] = [] := rfl
    rw [stripComments, stripFrom_parts ps [] hend, hback, ite_self, List.append_nil, List.reverse_reverse]
  have hall : stripComments (ps.flatMap Part.text) = Part.plain ps := by
    simpa using hstrip [] fun _ => rfl
  refine ⟨hall, fun body hbody => hstrip _ fun done => ?_, fun h => hall.trans (Part.plain_of_isStrict h)⟩
  have hline := stripFrom_line done [] hbody
  rw [List.append_nil] at hline
  rw [stripFrom, hline]
  rfl

/-- A bracket and a comma in a string, and a comment between a comma and its bracket. -/
theorem stripComments_parts_quoted :
    let ps : List Part := [.mark '[' rfl, .string ['\\', '"', ',', ']'] rfl, .comma,
      .block ['*', ','] (by decide), .blank ' ' rfl, .close ']' (.inr rfl)]
    '\n' ∉ [',', ']'] ∧ ps.flatMap Part.text ++ ['/', '/', ',', ']'] =
        "[\"\\\",]\",/**,*/ ]//,]".toList ∧
      stripComments "[\"\\\",]\",/**,*/ ]//,]".toList = "[\"\\\",]\" ]".toList ∧
      stripComments "[1]".toList = "[1]".toList := by
  intro ps
  refine ⟨by decide, rfl, (stripComments_parts ps).2.1 [',', ']'] (by decide), ?_⟩
  exact (stripComments_parts [.mark '[' rfl, .mark '1' rfl, .close ']' (.inr rfl)]).2.2 rfl

end SfcTsx.Json
