import SfcTsx.Markup.Extract
import SfcTsx.Proofs.Markup.StartTag

namespace SfcTsx.Markup

variable {word f : Text} {t rest : Text}

/-- A character of the words that `tagWord?` reads, behind the first. -/
def isTagWordChar (c : Char) : Bool := Text.isWordChar c || c == '-'

/-- A letter and the word characters behind it, in front of what ends them. -/
structure TagWord (word follow : Text) : Prop where
  letter : (word.head?.map Char.isAlpha).getD false = true
  chars : ∀ c ∈ word.tail, isTagWordChar c = true
  ends : ∀ c ∈ follow.head?, isTagWordChar c = false

theorem TagWord.congr {g : Text} (h : TagWord word f) (hfg : f.head? = g.head?) : TagWord word g :=
  ⟨h.letter, h.chars, hfg ▸ h.ends⟩

theorem TagWord.ne_nil (h : TagWord word f) : word ≠ [] := by
  rintro rfl
  cases h.letter

theorem TagWord.append (h : TagWord word f) (hf : f ≠ []) (g : Text) : TagWord word (f ++ g) := by
  cases f with
  | nil => exact absurd rfl hf
  | cons c f => exact h.congr rfl

theorem TagWord.of_append {g : Text} (h : TagWord word (f ++ g)) (hf : f ≠ []) :
    TagWord word f := by
  cases f with
  | nil => exact absurd rfl hf
  | cons c f => exact h.congr rfl

theorem TagWord.tagWord?_eq (h : TagWord word rest) :
    tagWord? (word ++ rest) = some (word, rest) := by
  cases word with
  | nil => exact absurd rfl h.ne_nil
  | cons c cs =>
    have hc : c.isAlpha = true := h.letter
    have hrun := Text.takeWhile_run h.chars h.ends
    unfold isTagWordChar at hrun
    simp only [List.tail_cons] at hrun
    simp only [List.cons_append, tagWord?, hc, if_true, hrun, List.drop_left]

theorem tagWord_of_tagWord? (h : tagWord? t = some (word, rest)) :
    t = word ++ rest ∧ TagWord word rest := by
  unfold tagWord? at h
  split at h
  next c cs =>
    split at h
    next hc =>
      obtain ⟨s, u, rfl, hs, hu⟩ := Text.exists_run isTagWordChar cs
      have hrun := Text.takeWhile_run hs hu
      unfold isTagWordChar at hrun
      simp only [hrun, List.drop_left] at h
      obtain ⟨rfl, rfl⟩ : c :: s = word ∧ u = rest := by simpa using h
      exact ⟨rfl, hc, hs, hu⟩
    next => cases h
  next => cases h

/-- The quotes that stand open behind a character. -/
def quoteAfter : Option Char → Char → Option Char
  | some q, c => if c == q then none else some q
  | none, c => if c == '"' || c == '\'' then some c else none

theorem afterAttributes_cons (quote : Option Char) (c : Char) (cs : Text) :
    afterAttributes quote (c :: cs) =
      if quote = none ∧ c = '>' then some cs else afterAttributes (quoteAfter quote c) cs := by
  cases quote with
  | none => simp [afterAttributes, quoteAfter]
  | some q => simp [afterAttributes, quoteAfter]

theorem afterAttributes_eq_some {quote : Option Char} (h : afterAttributes quote t = some rest) :
    ∃ s, t = s ++ rest ∧ ∀ f, afterAttributes quote (s ++ f) = some f := by
  induction t generalizing quote with
  | nil => cases quote <;> cases h
  | cons c cs ih =>
    rw [afterAttributes_cons] at h
    split at h
    next hend =>
      obtain rfl := Option.some.inj h
      exact ⟨[c], rfl, fun f => by rw [List.singleton_append, afterAttributes_cons, if_pos hend]⟩
    next hgo =>
      obtain ⟨s, rfl, hs⟩ := ih h
      refine ⟨c :: s, rfl, fun f => ?_⟩
      rw [List.cons_append, afterAttributes_cons, if_neg hgo, hs]

theorem afterStartTag?_eq_some (h : afterStartTag? t = some rest) :
    ∃ s, t = s ++ rest ∧ ∀ f, afterStartTag? (s ++ f) = some f := by
  unfold afterStartTag? at h
  split at h
  next => cases h
  next inner =>
    obtain rfl := Option.some.inj h
    exact ⟨['>'], rfl, fun f => rfl⟩
  next c attributes hc =>
    split at h
    next hspace =>
      obtain ⟨s, rfl, hs⟩ := afterAttributes_eq_some h
      refine ⟨c :: s, rfl, fun f => ?_⟩
      unfold afterStartTag?
      split
      next heq => cases heq
      next heq => exact absurd (List.cons.inj heq).1 hc
      next heq =>
        obtain ⟨rfl, rfl⟩ := List.cons.inj heq
        rw [if_pos hspace]
        exact hs f
    next => cases h

/-- An element with nothing but blanks in it, as it is written. -/
structure ElementShape where
  name : Text
  attributes : Text
  blank : Text
  closing : Text
  gap : Text

namespace ElementShape

def startTag (s : ElementShape) : Text := '<' :: (s.name ++ s.attributes)

def closeTag (s : ElementShape) : Text := '<' :: '/' :: (s.closing ++ (s.gap ++ ['>']))

def text (s : ElementShape) : Text := s.startTag ++ (s.blank ++ s.closeTag)

structure Fits (s : ElementShape) : Prop where
  name : TagWord s.name s.attributes
  attributes : ∀ f, afterStartTag? (s.attributes ++ f) = some f
  blank : ∀ c ∈ s.blank, Text.isSpace c = true
  closing : TagWord s.closing (s.gap ++ ['>'])
  gap : ∀ c ∈ s.gap, Text.isSpace c = true

def element (s : ElementShape) (f : Text) : EmptyElement :=
  ⟨s.name, s.closing, Text.size (s.blank ++ (s.closeTag ++ f)), Text.size (s.closeTag ++ f),
    Text.size f⟩

variable {s : ElementShape}

theorem Fits.attributes_ne_nil (h : s.Fits) : s.attributes ≠ [] := by
  intro hnil
  have := h.attributes []
  rw [hnil] at this
  cases this

theorem emptyElement?_eq (h : s.Fits) (f : Text) : emptyElement? (s.text ++ f) = some (s.element f) := by
  have hword : TagWord s.name (s.attributes ++ (s.blank ++ (s.closeTag ++ f))) :=
    h.name.append h.attributes_ne_nil _
  have hclosing : TagWord s.closing (s.gap ++ '>' :: f) := by
    simpa using h.closing.append (by simp) f
  have hblank : (s.blank ++ (s.closeTag ++ f)).dropWhile Text.isSpace = s.closeTag ++ f :=
    Text.dropWhile_run h.blank (by simp [closeTag, Text.isSpace])
  have hgap : (s.gap ++ '>' :: f).dropWhile Text.isSpace = '>' :: f :=
    Text.dropWhile_run h.gap (by simp [Text.isSpace])
  have htext : s.text ++ f = '<' :: (s.name ++ (s.attributes ++ (s.blank ++ (s.closeTag ++ f)))) := by
    simp [text, startTag]
  have hclose : s.closeTag ++ f = '<' :: '/' :: (s.closing ++ (s.gap ++ '>' :: f)) := by
    simp [closeTag]
  have hopen : Text.after? ("</" : String) ('<' :: '/' :: (s.closing ++ (s.gap ++ '>' :: f))) =
      some (s.closing ++ (s.gap ++ '>' :: f)) := rfl
  simp only [emptyElement?, htext, Text.after?, if_true, Option.bind_eq_bind, Option.bind_some,
    hword.tagWord?_eq, h.attributes, hblank]
  simp only [hclose, hopen, Option.bind_some, hclosing.tagWord?_eq, hgap, element]

theorem exists_of_emptyElement? {e : EmptyElement} (h : emptyElement? t = some e) :
    ∃ (s : ElementShape) (f : Text), t = s.text ++ f ∧ s.Fits ∧ e = s.element f := by
  suffices hshape : ∃ (s : ElementShape) (f : Text), t = s.text ++ f ∧ s.Fits by
    obtain ⟨s, f, rfl, hs⟩ := hshape
    rw [emptyElement?_eq hs] at h
    exact ⟨s, f, rfl, hs, (Option.some.inj h).symm⟩
  obtain ⟨t₁, h₁, hname⟩ := Option.bind_eq_some_iff.mp h
  obtain ⟨⟨name, t₂⟩, h₂, hattrs⟩ := Option.bind_eq_some_iff.mp hname
  obtain ⟨inner, h₃, hopen⟩ := Option.bind_eq_some_iff.mp hattrs
  obtain ⟨t₄, h₄, hclosing⟩ := Option.bind_eq_some_iff.mp hopen
  obtain ⟨⟨closing, t₅⟩, h₅, hend⟩ := Option.bind_eq_some_iff.mp hclosing
  simp only at h₃ h₄ hend
  obtain ⟨rfl, hword⟩ := tagWord_of_tagWord? h₂
  obtain ⟨attributes, rfl, hattributes⟩ := afterStartTag?_eq_some h₃
  obtain ⟨rfl, hcword⟩ := tagWord_of_tagWord? h₅
  obtain ⟨blank, u, rfl, hblank, hu⟩ := Text.exists_run Text.isSpace inner
  obtain ⟨gap, v, rfl, hgap, hv⟩ := Text.exists_run Text.isSpace t₅
  rw [Text.dropWhile_run hblank hu] at h₄
  rw [Text.dropWhile_run hgap hv] at hend
  split at hend
  next f =>
    have hne : attributes ≠ [] := by
      rintro rfl
      cases hattributes []
    have hu' := Text.after?_eq_some h₄
    refine ⟨⟨name, attributes, blank, closing, gap⟩, f, ?_, ?_, hattributes, hblank, ?_, hgap⟩
    · rw [Text.after?_eq_some h₁, hu']
      simp [text, startTag, closeTag]
    · exact hword.of_append hne
    · have hgt : TagWord closing ((gap ++ ['>']) ++ f) := by simpa using hcword
      exact hgt.of_append (by simp)
  next => cases hend

def block (s : ElementShape) (offset : Nat) : RawBlock :=
  let content : Span := ⟨offset + s.startTag.size, offset + s.startTag.size + s.blank.size⟩
  ⟨String.ofList s.name, content, ⟨content.stop, offset + s.text.size⟩⟩

/-- What the sweep keeps of an element: one whose tags differ is passed over. -/
def kept (s : ElementShape) (offset : Nat) : List (RawBlock × Span) :=
  if s.closing = s.name then [(s.block offset, ⟨offset, offset + s.text.size⟩)] else []

theorem size_text (s : ElementShape) :
    s.text.size = s.startTag.size + s.blank.size + s.closeTag.size := by
  simp only [text, Text.size_append]
  omega

theorem text_ne_nil (s : ElementShape) : s.text ≠ [] := by simp [text, startTag]

theorem emptyElements_element (h : s.Fits) (fuel offset : Nat) (f : Text) :
    emptyElements (fuel + 1) offset (s.text ++ f) =
      s.kept offset ++ emptyElements fuel (offset + s.text.size) f := by
  obtain ⟨c, cs, hc⟩ := List.exists_cons_of_ne_nil (show s.text ++ f ≠ [] by simp [s.text_ne_nil])
  have he := emptyElement?_eq h f
  have hsize := s.size_text
  have hskip : skipTo offset (offset + s.text.size) (s.text ++ f) = f := by
    simp [skipTo, Text.drop?_size_append]
  -- The sizes of what follows count back from the end.
  have hinner : offset + (Text.size (s.text ++ f) - (s.element f).inner) = offset + s.startTag.size := by
    simp only [element, Text.size_append]
    omega
  have hclose : offset + (Text.size (s.text ++ f) - (s.element f).close) =
      offset + s.startTag.size + s.blank.size := by
    simp only [element, Text.size_append]
    omega
  have hafter : offset + (Text.size (s.text ++ f) - (s.element f).after) = offset + s.text.size := by
    simp only [element, Text.size_append]
    omega
  rw [hc] at he hinner hclose hafter hskip ⊢
  rw [emptyElements, he]
  simp only [hinner, hclose, hafter, hskip, kept, block]
  by_cases hname : s.closing = s.name
  · simp [element, hname]
  · simp [element, hname]

end ElementShape

theorem emptyElements_char {c : Char} {cs : Text} (h : emptyElement? (c :: cs) = none)
    (fuel offset : Nat) :
    emptyElements (fuel + 1) offset (c :: cs) = emptyElements fuel (offset + c.utf8Size) cs := by
  rw [emptyElements, h]

end SfcTsx.Markup
