import SfcTsx.Markup.Template.Parser
import SfcTsx.Proofs.Markup.StartTag

namespace SfcTsx.Markup

variable {f name blank : Text} {s : TagShape}

def closingText (name blank : Text) : Text := '<' :: '/' :: (name ++ (blank ++ ['>']))

structure IsClosing (name blank : Text) : Prop where
  ne_nil : name ≠ []
  chars : ∀ c ∈ name, (!(Text.isTagSpace c || c == '>')) = true
  blank : Blank blank

theorem size_closingText (name blank : Text) :
    (closingText name blank).size = 2 + name.size + blank.size + 1 := by
  have h1 : ('<' : Char).utf8Size = 1 := rfl
  have h2 : ('/' : Char).utf8Size = 1 := rfl
  have h3 : ('>' : Char).utf8Size = 1 := rfl
  simp only [closingText, Text.size_cons, Text.size_append, Text.size_nil, h1, h2, h3]
  omega

namespace Template

variable {offset : Nat}

theorem closingTag?_eq (h : IsClosing name blank) (offset : Nat) (f : Text) :
    closingTag? offset (closingText name blank ++ f) =
      some (name, ⟨offset, offset + (closingText name blank).size⟩) := by
  have htext : closingText name blank ++ f = '<' :: '/' :: (name ++ (blank ++ '>' :: f)) := by
    simp [closingText]
  have hafter : Text.after? ("</" : String) (closingText name blank ++ f) =
      some (name ++ (blank ++ '>' :: f)) := by
    rw [htext]
    rfl
  have hend : ∀ c ∈ (blank ++ '>' :: f).head?, (!(Text.isTagSpace c || c == '>')) = false := by
    intro c hc
    cases hb : blank with
    | nil =>
      obtain rfl : '>' = c := by simpa [hb] using hc
      rfl
    | cons d b =>
      obtain rfl : d = c := by simpa [hb] using hc
      simp [h.blank d (by simp [hb])]
  have hname : (name ++ (blank ++ '>' :: f)).takeWhile (fun c => !(Text.isTagSpace c || c == '>')) =
      name := Text.takeWhile_run h.chars hend
  have hblank : (blank ++ '>' :: f).takeWhile Text.isTagSpace = blank := by
    refine Text.takeWhile_run h.blank ?_
    intro c hc
    obtain rfl : '>' = c := by simpa using hc
    rfl
  have hne : name.isEmpty = false := by simpa using h.ne_nil
  simp only [closingTag?, hafter, bind, Option.bind, hname, hne, List.drop_left, hblank,
    size_closingText, Nat.add_assoc, Bool.false_eq_true, if_false]

theorem exists_of_closingTag? {text : Text} {span : Span}
    (h : closingTag? offset text = some (name, span)) :
    ∃ blank f, text = closingText name blank ++ f ∧ IsClosing name blank ∧
      span = ⟨offset, offset + (closingText name blank).size⟩ := by
  have hshape : ∃ blank f, text = closingText name blank ++ f ∧ IsClosing name blank := by
    simp only [closingTag?, bind] at h
    obtain ⟨rest, hrest, h⟩ := Option.bind_eq_some_iff.mp h
    have htext := Text.after?_eq_some hrest
    obtain ⟨n, u, rfl, hn, hu⟩ := Text.exists_run (fun c => !(Text.isTagSpace c || c == '>')) rest
    obtain ⟨b, v, rfl, hb, hv⟩ := Text.exists_run Text.isTagSpace u
    simp only [Text.takeWhile_run hn hu, List.drop_left, Text.takeWhile_run hb hv] at h
    split at h
    next => cases h
    next hne =>
      split at h
      next g f =>
        obtain ⟨rfl, -⟩ : n = name ∧ _ := by simpa using h
        exact ⟨b, f, by simpa [closingText] using htext, by simpa using hne, hn, hb⟩
      next => cases h
  obtain ⟨blank, f, rfl, hclosing⟩ := hshape
  rw [closingTag?_eq hclosing] at h
  obtain ⟨-, rfl⟩ := Prod.mk.inj (Option.some.inj h)
  exact ⟨blank, f, rfl, hclosing, rfl⟩

def delimitedText (mark body : Text) (closed : Bool) : Text := body ++ if closed then mark else []

def Closes (mark body : Text) (closed : Bool) (follow : Text) : Prop :=
  if closed then Text.cutAt? mark (body ++ (mark ++ follow)) = some (body, mark ++ follow)
  else follow = [] ∧ Text.cutAt? mark body = none

theorem delimited_eq {mark body : Text} {closed : Bool} (h : Closes mark body closed f)
    (offset : Nat) : delimited mark offset (delimitedText mark body closed ++ f) =
      (body, offset + (delimitedText mark body closed).size, f, !closed) := by
  cases closed with
  | true =>
    have hcut : Text.cutAt? mark (body ++ (mark ++ f)) = some (body, mark ++ f) := h
    simp [delimited, delimitedText, hcut, Nat.add_assoc]
  | false =>
    obtain ⟨rfl, hcut⟩ := h
    simp [delimited, delimitedText, hcut]

theorem exists_closes (mark text : Text) :
    ∃ body closed f, text = delimitedText mark body closed ++ f ∧ Closes mark body closed f := by
  cases hcut : Text.cutAt? mark text with
  | none => exact ⟨text, false, [], by simp [delimitedText], rfl, hcut⟩
  | some cut =>
    obtain ⟨body, rest⟩ := cut
    obtain ⟨rfl, f, rfl⟩ := Text.cutAt?_eq_some hcut
    exact ⟨body, true, f, by simp [delimitedText], hcut⟩

/-- The spans of the closing tags that close nothing, among all that is wrong. -/
def strays (errors : List ParseError) : List Span :=
  errors.filterMap fun e =>
    match e.kind with
    | .strayClosingTag _ => some e.span
    | _ => none

@[simp] theorem strays_append (es fs : List ParseError) :
    strays (es ++ fs) = strays es ++ strays fs := List.filterMap_append

section
variable {rest : Text} {e : ParseError}

theorem strays_scanValue {name equals : Token} (h : StartTag.scanValue name equals rest = .error e) :
    strays [e] = [] := by
  simp only [StartTag.scanValue] at h
  split at h
  · cases h
  · cases h
  · cases h
  · cases h
    rfl

theorem strays_scanAttr {name : Token} (h : StartTag.scanAttr name rest = .error e) :
    strays [e] = [] := by
  simp only [StartTag.scanAttr] at h
  split at h
  · obtain hvalue | ⟨_, _, hpure⟩ := exists_of_bind_error h
    · exact strays_scanValue hvalue
    · cases hpure
  · cases h

theorem strays_scanAttrs {start fuel : Nat} {tag : String}
    (h : StartTag.scanAttrs start tag fuel offset rest = .error e) : strays [e] = [] := by
  induction fuel generalizing offset rest with
  | zero =>
    cases h
    rfl
  | succ fuel ih =>
    simp only [StartTag.scanAttrs] at h
    split at h
    case h_3 =>
      obtain hattr | ⟨_, _, hmore⟩ := exists_of_bind_error h
      · exact strays_scanAttr hattr
      · obtain hrest | ⟨_, _, hpure⟩ := exists_of_bind_error hmore
        · exact ih hrest
        · cases hpure
    case h_4 => exact ih h
    all_goals cases h <;> rfl

theorem strays_scan (h : StartTag.scan offset rest = .error e) : strays [e] = [] := by
  simp only [StartTag.scan] at h
  split at h
  · cases h
    rfl
  · split at h
    · cases h
      rfl
    · obtain hattrs | ⟨_, _, hpure⟩ := exists_of_bind_error h
      · exact strays_scanAttrs hattrs
      · cases hpure

end

def NoTag (text : Text) : Prop := ∀ (s : TagShape) (f : Text), text = s.text ++ f → ¬ s.Fits f

theorem startTag_eq (h : s.Fits f) (after : Text) (offset : Nat) :
    startTag after offset (s.text ++ f) = .ok (s.startTag offset) := by
  have hscan : StartTag.scan offset (s.text ++ f ++ after) = .ok (s.startTag offset) := by
    rw [List.append_assoc]
    exact TagShape.scan_eq (h.congr (f ++ after)) offset
  have hstop : (s.startTag offset).span.stop ≤ offset + (s.text ++ f).size := by
    simp only [TagShape.startTag, Text.size_append]
    omega
  simp only [startTag, hscan, bind, Except.bind, if_pos hstop, pure, Except.pure]

theorem startTag_error {text : Text} (h : NoTag ('<' :: text)) (after : Text) (offset : Nat) :
    ∃ e, strays [e] = [] ∧ startTag after offset ('<' :: text) = .error e := by
  cases hscan : StartTag.scan offset ('<' :: text ++ after) with
  | error e => exact ⟨e, strays_scan hscan, by simp only [startTag, hscan]; rfl⟩
  | ok tag =>
    rw [List.cons_append] at hscan
    obtain ⟨s, f, htext, hfits, rfl⟩ := TagShape.exists_of_scan hscan
    have hlong : ¬ (s.startTag offset).span.stop ≤ offset + Text.size ('<' :: text) := by
      intro hle
      simp only [TagShape.startTag] at hle
      -- the tag would end inside of the text
      obtain ⟨g, hg, -⟩ | ⟨g, hg, hf⟩ := List.append_eq_append_iff.mp
        (show ('<' :: text) ++ after = s.text ++ f from htext)
      · obtain rfl : g = [] := by
          have hsize : Text.size s.text = Text.size ('<' :: text) + Text.size g := by
            rw [hg, Text.size_append]
          exact Text.size_eq_zero.mp (by omega)
        exact h s [] (by simpa using hg.symm) (hfits.congr [])
      · exact h s g hg (hfits.congr g)
    refine ⟨⟨.unterminatedStartTag (s.startTag offset).name, ⟨offset, offset + Text.size ('<' :: text)⟩⟩,
      rfl, ?_⟩
    have happ : '<' :: text ++ after = '<' :: (text ++ after) := rfl
    simp only [startTag, happ, hscan, bind, Except.bind, if_neg hlong]
    rfl

end Template

/-- A part of a template as it is written. -/
inductive Shape where
  | plain (t : Text)
  | comment (body : Text) (closed : Bool)
  | interpolation (body : Text) (closed : Bool)
  /-- A closing tag that closes nothing, which is no node. -/
  | stray (name blank : Text)
  /-- An element; `close` is the blank in its closing tag. -/
  | element (tag : TagShape) (children : List Shape) (close : Option Text)

variable {ss children : List Shape}

namespace Shape

open Template

def commentMark : Text := ['-', '-', '>']

def interpolationMark : Text := ['}', '}']

def closeText (name : Text) (close : Option Text) : Text := (close.map (closingText name)).getD []

mutual

def text : Shape → Text
  | .plain t => t
  | .comment body closed => ['<', '!', '-', '-'] ++ delimitedText commentMark body closed
  | .interpolation body closed => ['{', '{'] ++ delimitedText interpolationMark body closed
  | .stray name blank => closingText name blank
  | .element tag children close => tag.text ++ (allText children ++ closeText tag.name close)

def allText : List Shape → Text
  | [] => []
  | s :: ss => s.text ++ allText ss

end

def isChildless (tag : TagShape) : Bool := tag.selfClosing || isVoidElement (String.ofList tag.name)

def tagAt (offset : Nat) (tag : TagShape) (children : Text) (close : Option Text) : Tag :=
  let start := (tag.startTag offset).span.stop + children.size
  { span := ⟨offset, start + (closeText tag.name close).size⟩
    name := String.ofList tag.name
    nameSpan := (tag.startTag offset).nameSpan
    startTag := (tag.startTag offset).span
    closeTag := close.map fun blank => ⟨start, start + (closingText tag.name blank).size⟩
    attrs := (attrs [] (tag.startTag offset).attrs).1
    selfClosing := isChildless tag }

mutual

def nodes (offset : Nat) : Shape → List Node
  | .plain t => [.text ⟨offset, offset + t.size⟩ t]
  | .comment body closed =>
    [.comment ⟨offset, offset + 4 + (delimitedText commentMark body closed).size⟩ body]
  | .interpolation body closed =>
    [.interpolation ⟨offset, offset + 2 + (delimitedText interpolationMark body closed).size⟩
      ⟨body, ⟨offset + 2, offset + 2 + body.size⟩⟩]
  | .stray .. => []
  | .element tag children close =>
    [.element (tagAt offset tag (allText children) close)
      (allNodes (tag.startTag offset).span.stop children)]

def allNodes (offset : Nat) : List Shape → List Node
  | [] => []
  | s :: ss => s.nodes offset ++ allNodes (offset + s.text.size) ss

end

mutual

def strays (offset : Nat) : Shape → List Span
  | .stray name blank => [⟨offset, offset + (closingText name blank).size⟩]
  | .element tag children _ => allStrays (tag.startTag offset).span.stop children
  | .plain _ | .comment .. | .interpolation .. => []

def allStrays (offset : Nat) : List Shape → List Span
  | [] => []
  | s :: ss => s.strays offset ++ allStrays (offset + s.text.size) ss

end

/-- The text goes on with what is no comment, closing tag, start tag or interpolation. -/
structure BeginsText (text : Text) : Prop where
  comment : Text.after? ['<', '!', '-', '-'] text = none
  closing : ∀ name blank f, text = closingText name blank ++ f → ¬ IsClosing name blank
  other : startsTag text = true ∧ NoTag text ∨
    startsTag text = false ∧ Text.after? ['{', '{'] text = none

/-- Nodes end here: at the end of the text or in front of a closing tag of the stack. -/
def Stops (stack : List String) (follow : Text) : Prop :=
  follow = [] ∨ ∃ name blank f, follow = closingText name blank ++ f ∧ IsClosing name blank ∧
    String.ofList name ∈ stack

def RawFits (name : Text) (children : List Shape) (follow : Text) : Prop :=
  ∃ body, children = (if body = [] then [] else [.plain body]) ∧
    (Text.cutAt? (['<', '/'] ++ name) (body ++ follow) = some (body, follow) ∨
      follow = [] ∧ Text.cutAt? (['<', '/'] ++ name) body = none)

/-- The element ends with its closing tag, if there is one. -/
def CloseFits (name : Text) : Option Text → Text → Prop
  | some blank, _ => Blank blank
  | none, follow => ∀ blank f, follow = closingText name blank ++ f → ¬ IsClosing name blank

mutual

/-- A text that goes on as given is of this form where the elements of the stack are open. -/
def Fits (stack : List String) : Shape → Text → Prop
  | .plain t, f => t ≠ [] ∧ BeginsText (t ++ f) ∧ textLength (t ++ f) = t.length
  | .comment body closed, f => Closes commentMark body closed f
  | .interpolation body closed, f => Closes interpolationMark body closed f
  | .stray name blank, _ => IsClosing name blank ∧ String.ofList name ∉ stack
  | .element tag children close, f =>
    tag.Fits (allText children ++ (closeText tag.name close ++ f)) ∧
      if isChildless tag then children = [] ∧ close = none
      else CloseFits tag.name close f ∧
        if isRawElement (String.ofList tag.name) then
          RawFits tag.name children (closeText tag.name close ++ f)
        else AllFit (String.ofList tag.name :: stack) children (closeText tag.name close ++ f)

def AllFit (stack : List String) : List Shape → Text → Prop
  | [], f => Stops stack f
  | s :: ss, f => s.Fits stack (allText ss ++ f) ∧ AllFit stack ss f

end

theorem Fits.text_ne_nil {stack : List String} {s : Shape} (h : s.Fits stack f) : s.text ≠ [] := by
  cases s with
  | plain t => exact h.1
  | _ => simp [text, closingText, TagShape.text]

theorem length_inner_lt (tag : TagShape) (children : List Shape) (close : Option Text) (f : Text) :
    (allText children ++ (closeText tag.name close ++ f)).length <
      ((element tag children close).text ++ f).length := by
  simp only [text, TagShape.text, List.length_append, List.length_cons]
  omega

theorem RawFits.allStrays (h : RawFits name children f) (offset : Nat) :
    Shape.allStrays offset children = [] := by
  obtain ⟨body, rfl, -⟩ := h
  split <;> rfl

theorem Stops.eq_nil (h : Stops [] f) : f = [] := by
  rcases h with rfl | ⟨_, _, _, _, _, hmem⟩
  · rfl
  · cases hmem

theorem AllFit.stops {stack : List String} (h : AllFit stack ss f) : Stops stack f := by
  induction ss with
  | nil => exact h
  | cons s ss ih => exact ih h.2

end Shape

namespace Template

def Piece.cons (piece : Piece) (before : List ParseError) (r : Run) : Run :=
  (piece.node :: r.1, r.2.1, r.2.2.1, before ++ piece.errors ++ r.2.2.2)

section
variable (after : Text) (stack : List String) (offset : Nat)

theorem nodesFrom_comment (fuel : Nat) (body : Text) :
    nodesFrom after (fuel + 1) stack offset (['<', '!', '-', '-'] ++ body) =
      (comment offset body).cons []
        (nodesFrom after fuel stack (comment offset body).stop (comment offset body).rest) := rfl

theorem nodesFrom_stop (fuel : Nat) (h : IsClosing name blank) (hstack : String.ofList name ∈ stack) :
    nodesFrom after (fuel + 1) stack offset (closingText name blank ++ f) =
      ([], offset, closingText name blank ++ f, []) := by
  have hclose := closingTag?_eq h offset f
  have hnone : Text.after? ("<!--" : String) (closingText name blank ++ f) = none := rfl
  generalize htext : closingText name blank ++ f = text at hclose hnone ⊢
  cases text with
  | nil => rw [closingText] at htext; cases htext
  | cons c cs => simp only [nodesFrom, hnone, hclose, List.contains_iff_mem.mpr hstack, if_true]

theorem nodesFrom_stray (fuel : Nat) (h : IsClosing name blank)
    (hstack : String.ofList name ∉ stack) :
    nodesFrom after (fuel + 1) stack offset (closingText name blank ++ f) =
      let stop := offset + (closingText name blank).size
      let r := nodesFrom after fuel stack stop f
      (r.1, r.2.1, r.2.2.1, ⟨.strayClosingTag (String.ofList name), ⟨offset, stop⟩⟩ :: r.2.2.2) := by
  have hclose := closingTag?_eq h offset f
  have hnone : Text.after? ("<!--" : String) (closingText name blank ++ f) = none := rfl
  have hdrop : (Text.drop? (closingText name blank).size (closingText name blank ++ f)).getD [] = f := by
    rw [Text.drop?_size_append]
    rfl
  generalize htext : closingText name blank ++ f = text at hclose hnone hdrop ⊢
  have hcontains : stack.contains (String.ofList name) = false := by simpa using hstack
  cases text with
  | nil => rw [closingText] at htext; cases htext
  | cons c cs =>
    simp only [nodesFrom, hnone, hclose, hcontains, Bool.false_eq_true, if_false, Span.len,
      Nat.add_sub_cancel_left, hdrop]

theorem nodesFrom_interpolation (fuel : Nat) (body : Text) :
    nodesFrom after (fuel + 1) stack offset (['{', '{'] ++ body) =
      (interpolation offset body).cons []
        (nodesFrom after fuel stack (interpolation offset body).stop
          (interpolation offset body).rest) := rfl

theorem nodesFrom_plain {text : Text} (hne : text ≠ []) (h : Shape.BeginsText text) :
    ∃ before, strays before = [] ∧ ∀ fuel, nodesFrom after (fuel + 1) stack offset text =
      (textNode offset (textLength text) text).cons before
        (nodesFrom after fuel stack (textNode offset (textLength text) text).stop
          (textNode offset (textLength text) text).rest) := by
  have hclose : closingTag? offset text = none := by
    cases hc : closingTag? offset text with
    | none => rfl
    | some found =>
      obtain ⟨blank, f, htext, hclosing, -⟩ := exists_of_closingTag? hc
      exact absurd hclosing (h.closing _ _ _ htext)
  have hcomment : Text.after? ("<!--" : String) text = none := h.comment
  obtain ⟨c, cs, rfl⟩ := List.exists_cons_of_ne_nil hne
  rcases h.other with ⟨htag, hno⟩ | ⟨htag, hopen⟩
  · obtain rfl : c = '<' := by
      unfold startsTag at htag
      split at htag
      next heq => exact (List.cons.inj heq).1
      next => cases htag
    obtain ⟨e, hkind, he⟩ := startTag_error hno after offset
    refine ⟨[e], hkind, fun fuel => ?_⟩
    simp only [nodesFrom, hcomment, hclose, htag, if_true, he]
    rfl
  · have hopen : Text.after? ("\x7b\x7b" : String) (c :: cs) = none := hopen
    refine ⟨[], rfl, fun fuel => ?_⟩
    simp only [nodesFrom, hcomment, hclose, htag, hopen, Bool.false_eq_true, if_false]
    rfl

/-- What is read behind a start tag up to the closing tag. -/
def inner (fuel : Nat) (tag : StartTag) (rest : Text) : Run :=
  if isRawElement tag.name then rawChildren tag.name tag.span.stop rest
  else nodesFrom after fuel (tag.name :: stack) tag.span.stop rest

theorem nodesFrom_element (fuel : Nat) (h : s.Fits f) :
    nodesFrom after (fuel + 1) stack offset (s.text ++ f) =
      let tag := s.startTag offset
      let found := attrs [] tag.attrs
      let piece := if Shape.isChildless s then childless tag found.1 found.2 f
        else finish tag found.1 found.2 (inner after stack fuel tag f)
      piece.cons [] (nodesFrom after fuel stack piece.stop piece.rest) := by
  have hstart := startTag_eq h after offset
  have hdrop : (Text.drop? s.text.size (s.text ++ f)).getD [] = f := by
    rw [Text.drop?_size_append]
    rfl
  obtain ⟨c, n, hn, hc⟩ := TagShape.head?_name h
  have htext : s.text ++ f = '<' :: c :: (n ++ (s.tail ++ f)) := by simp [TagShape.text, hn]
  have htag : startsTag (s.text ++ f) = true := by rw [htext]; exact hc
  have hletter : c ≠ '!' ∧ c ≠ '/' := by
    constructor <;> rintro rfl <;> cases hc
  have hcomment : Text.after? ("<!--" : String) (s.text ++ f) = none := by
    rw [htext]
    simp [Text.after?, Ne.symm hletter.1]
  have hclose : closingTag? offset (s.text ++ f) = none := by
    have hnone : Text.after? ("</" : String) (s.text ++ f) = none := by
      rw [htext]
      simp [Text.after?, Ne.symm hletter.2]
    simp only [closingTag?, hnone, bind, Option.bind]
  have hlen : (s.startTag offset).span.len = s.text.size := by simp [TagShape.startTag, Span.len]
  have hname : (s.startTag offset).name = String.ofList s.name := rfl
  have hself : (s.startTag offset).selfClosing = s.selfClosing := rfl
  generalize htext : s.text ++ f = text at hstart hdrop htag hcomment hclose ⊢
  cases text with
  | nil => cases htag
  | cons c cs =>
    simp only [nodesFrom, hcomment, hclose, htag, if_true, hstart, hlen, hdrop, Shape.isChildless,
      hname, hself, inner]
    by_cases hchildless : (s.selfClosing || isVoidElement (String.ofList s.name)) = true
    · simp only [if_pos hchildless]
      rfl
    · by_cases hraw : isRawElement (String.ofList s.name) = true
      · simp only [if_neg hchildless, if_pos hraw]
        rfl
      · simp only [if_neg hchildless, if_neg hraw]
        rfl

theorem finish_eq {close : Option Text} {g : Text} (h : Shape.CloseFits s.name close g)
    (hname : ∀ blank, Blank blank → IsClosing s.name blank) (hc : Shape.isChildless s = false)
    (children : Text) (nodes : List Node) (errors more : List ParseError) :
    ∃ all, strays all = strays errors ++ strays more ∧
      finish (s.startTag offset) (attrs [] (s.startTag offset).attrs).1 errors
        (nodes, (s.startTag offset).span.stop + children.size, Shape.closeText s.name close ++ g, more) =
      ⟨.element (Shape.tagAt offset s children close) nodes,
        (s.startTag offset).span.stop + children.size + (Shape.closeText s.name close).size, g, all⟩ := by
  cases close with
  | some blank =>
    have hclose := closingTag?_eq (hname blank h) ((s.startTag offset).span.stop + children.size) g
    have hdrop : (Text.drop? (closingText s.name blank).size (closingText s.name blank ++ g)).getD [] =
        g := by
      rw [Text.drop?_size_append]
      rfl
    have hsame : s.name = (s.startTag offset).name.toList := by simp [TagShape.startTag]
    refine ⟨errors ++ more, strays_append errors more, ?_⟩
    simp only [finish, Shape.closeText, Option.map_some, Option.getD_some, hclose, if_pos hsame,
      Span.len, Nat.add_sub_cancel_left, hdrop, Shape.tagAt, hc]
    rfl
  | none =>
    refine ⟨errors ++ more ++ [⟨.unclosedTag (s.startTag offset).name, (s.startTag offset).span⟩],
      by simp [strays], ?_⟩
    simp only [finish, Shape.closeText, Option.map_none, Option.getD_none, List.nil_append,
      Text.size_nil, Nat.add_zero]
    split
    next name span hclose =>
      obtain ⟨blank, f, rfl, hclosing, -⟩ := exists_of_closingTag? hclose
      have hne : ¬ name = (s.startTag offset).name.toList := by
        simp only [TagShape.startTag, String.toList_ofList]
        rintro rfl
        exact h blank f rfl hclosing
      simp only [if_neg hne, Shape.tagAt, hc]
      rfl
    next =>
      simp only [Shape.tagAt, hc]
      rfl

end

theorem isClosing_name (h : s.Fits f) (hb : Blank blank) : IsClosing s.name blank := by
  refine ⟨h.name.ne_nil, ?_, hb⟩
  intro c hc
  have hchars := Lexed.isNameChar_cases (h.name.chars c hc)
  simp [hchars]

theorem rawChildren_eq {g : Text} (h : Shape.RawFits s.name children g) (offset : Nat) :
    rawChildren (String.ofList s.name) offset (Shape.allText children ++ g) =
      (Shape.allNodes offset children, offset + (Shape.allText children).size, g, []) := by
  obtain ⟨body, rfl, hcut⟩ := h
  have hneedle : ("</" : String).toList ++ (String.ofList s.name).toList = ['<', '/'] ++ s.name := by
    simp
  have htext : Shape.allText (if body = [] then [] else [.plain body]) = body := by
    split <;> simp_all [Shape.allText, Shape.text]
  have hpiece : (if body.isEmpty then ([], offset, body ++ g, [])
      else
        let piece := textNode offset body.length (body ++ g)
        (([piece.node], piece.stop, piece.rest, []) : Run)) =
      (Shape.allNodes offset (if body = [] then [] else [.plain body]), offset + Text.size body, g, []) := by
    by_cases hnil : body = []
    · simp [hnil, Shape.allNodes]
    · simp [hnil, Shape.allNodes, Shape.nodes, textNode]
  rw [htext, ← hpiece]
  rcases hcut with hcut | ⟨rfl, hcut⟩
  · simp only [rawChildren, hneedle, hcut]
  · simp only [rawChildren, hneedle, List.append_nil, hcut]

theorem strays_attrs (seen : List Attr) (raws : List RawAttr) : strays (attrs seen raws).2 = [] := by
  induction raws generalizing seen with
  | nil => rfl
  | cons r raws ih =>
    unfold attrs
    split
    · exact ih seen
    · exact ih _

/-- One step takes a part of this form off the text, with as much fuel as the text is long. -/
def Reads (after : Text) (stack : List String) (offset : Nat) (s : Shape) (f : Text) : Prop :=
  ∃ before, strays before = s.strays offset ∧ ∀ fuel, (s.text ++ f).length ≤ fuel →
    nodesFrom after (fuel + 1) stack offset (s.text ++ f) =
      let r := nodesFrom after fuel stack (offset + s.text.size) f
      (s.nodes offset ++ r.1, r.2.1, r.2.2.1, before ++ r.2.2.2)

/-- A text of this form is read to its nodes, whatever the fuel beyond its length. -/
def ReadsAll (after : Text) (stack : List String) (offset : Nat) (ss : List Shape) (f : Text) : Prop :=
  ∃ errors, strays errors = Shape.allStrays offset ss ∧
    ∀ fuel, (Shape.allText ss ++ f).length < fuel →
      nodesFrom after fuel stack offset (Shape.allText ss ++ f) =
        (Shape.allNodes offset ss, offset + (Shape.allText ss).size, f, errors)

namespace Reads

variable {after : Text} {stack : List String}

theorem of_piece {s : Shape} (piece : Piece) (before : List ParseError)
    (hread : ∀ fuel, (s.text ++ f).length ≤ fuel → nodesFrom after (fuel + 1) stack offset (s.text ++ f) =
      piece.cons before (nodesFrom after fuel stack piece.stop piece.rest))
    (hnode : s.nodes offset = [piece.node]) (hstop : piece.stop = offset + s.text.size)
    (hrest : piece.rest = f) (hstrays : strays (before ++ piece.errors) = s.strays offset) :
    Reads after stack offset s f := by
  refine ⟨before ++ piece.errors, hstrays, fun fuel hfuel => ?_⟩
  rw [hread fuel hfuel, hstop, hrest, hnode]
  rfl

theorem plain {t : Text} (h : (Shape.plain t).Fits stack f) :
    Reads after stack offset (.plain t) f := by
  obtain ⟨hne, hbegins, hlen⟩ := h
  obtain ⟨before, hbefore, hplain⟩ := nodesFrom_plain after stack offset (by simp [hne]) hbegins
  rw [hlen] at hplain
  refine of_piece _ before (fun fuel _ => hplain fuel) ?_ ?_ ?_ ?_
  all_goals simp [textNode, Shape.nodes, Shape.text, Shape.strays, hbefore]

theorem comment {body : Text} {closed : Bool} (h : Closes Shape.commentMark body closed f) :
    Reads after stack offset (.comment body closed) f := by
  have hdelim : delimited ("-->" : String) (offset + 4) _ = _ := delimited_eq h (offset + 4)
  refine of_piece (Template.comment offset (delimitedText Shape.commentMark body closed ++ f)) []
    (fun fuel _ => nodesFrom_comment after stack offset fuel _) ?_ ?_ ?_ ?_
  all_goals simp only [Template.comment, hdelim]
  · rfl
  · rw [Shape.text, Text.size_append, ← Nat.add_assoc]
    rfl
  · cases closed <;> rfl

theorem interpolation {body : Text} {closed : Bool} (h : Closes Shape.interpolationMark body closed f) :
    Reads after stack offset (.interpolation body closed) f := by
  have hdelim : delimited ("\x7d\x7d" : String) (offset + 2) _ = _ := delimited_eq h (offset + 2)
  refine of_piece (Template.interpolation offset (delimitedText Shape.interpolationMark body closed ++ f))
    [] (fun fuel _ => nodesFrom_interpolation after stack offset fuel _) ?_ ?_ ?_ ?_
  all_goals simp only [Template.interpolation, hdelim]
  · rfl
  · rw [Shape.text, Text.size_append, ← Nat.add_assoc]
    rfl
  · cases closed <;> rfl

theorem stray (h : (Shape.stray name blank).Fits stack f) :
    Reads after stack offset (.stray name blank) f :=
  ⟨[_], rfl, fun fuel _ => nodesFrom_stray after stack offset fuel h.1 h.2⟩

theorem element {tag : TagShape} {close : Option Text}
    (h : (Shape.element tag children close).Fits stack f)
    (hchildren : Shape.AllFit (String.ofList tag.name :: stack) children
        (Shape.closeText tag.name close ++ f) →
      ReadsAll after (String.ofList tag.name :: stack) (tag.startTag offset).span.stop children
        (Shape.closeText tag.name close ++ f)) :
    Reads after stack offset (.element tag children close) f := by
  obtain ⟨htag, hinner⟩ := h
  have htext : (Shape.element tag children close).text ++ f = tag.text ++
      (Shape.allText children ++ (Shape.closeText tag.name close ++ f)) := by
    simp [Shape.text]
  have hsize : offset + (Shape.element tag children close).text.size =
      (tag.startTag offset).span.stop + (Shape.allText children).size +
        (Shape.closeText tag.name close).size := by
    simp [Shape.text, TagShape.startTag, Nat.add_assoc]
  have hread := fun fuel => nodesFrom_element after stack offset fuel htag
  rw [← htext] at hread
  cases hc : Shape.isChildless tag with
  | true =>
    rw [hc, if_pos rfl] at hinner
    obtain ⟨rfl, rfl⟩ := hinner
    simp only [hc, if_true] at hread
    refine of_piece _ [] (fun fuel _ => hread fuel) ?_ ?_ rfl (strays_attrs [] (tag.startTag offset).attrs)
    · simp [childless, Shape.nodes, Shape.allNodes, Shape.tagAt, Shape.allText, Shape.closeText, hc,
        TagShape.startTag]
    · rw [hsize]
      rfl
  | false =>
    rw [hc, if_neg (by simp)] at hinner
    obtain ⟨hclose, hinner⟩ := hinner
    obtain ⟨more, hmore, hrun⟩ : ∃ more,
        strays more = Shape.allStrays (tag.startTag offset).span.stop children ∧
        ∀ fuel, ((Shape.element tag children close).text ++ f).length ≤ fuel →
          inner after stack fuel (tag.startTag offset)
              (Shape.allText children ++ (Shape.closeText tag.name close ++ f)) =
            (Shape.allNodes (tag.startTag offset).span.stop children,
              (tag.startTag offset).span.stop + (Shape.allText children).size,
              Shape.closeText tag.name close ++ f, more) := by
      split at hinner
      next hraw =>
        refine ⟨[], (hinner.allStrays _).symm, fun fuel _ => ?_⟩
        rw [inner, if_pos (by exact hraw)]
        exact rawChildren_eq hinner _
      next hraw =>
        obtain ⟨more, hmore, hread⟩ := hchildren hinner
        refine ⟨more, hmore, fun fuel hfuel => ?_⟩
        rw [inner, if_neg (by exact hraw)]
        exact hread fuel (Nat.lt_of_lt_of_le (Shape.length_inner_lt ..) hfuel)
    obtain ⟨all, hall, hfinish⟩ := finish_eq offset hclose (fun _ => isClosing_name htag) hc
      (Shape.allText children) (Shape.allNodes (tag.startTag offset).span.stop children)
      (attrs [] (tag.startTag offset).attrs).2 more
    refine of_piece ⟨_, _, _, all⟩ [] (fun fuel hfuel => ?_) rfl hsize.symm rfl
      (by rw [List.nil_append, hall, strays_attrs, hmore]; rfl)
    simp only [hread, hc, Bool.false_eq_true, if_false, hrun fuel hfuel, hfinish]

end Reads

theorem nodesFrom_eq (after : Text) {stack : List String} (h : Shape.AllFit stack ss f)
    (offset : Nat) : ReadsAll after stack offset ss f := by
  induction hn : (Shape.allText ss ++ f).length using Nat.strong_induction_on
    generalizing stack ss f offset with
  | _ n ih =>
  subst hn
  cases ss with
  | nil =>
    refine ⟨[], rfl, fun fuel hfuel => ?_⟩
    obtain ⟨fuel, rfl⟩ := Nat.exists_eq_succ_of_ne_zero (Nat.ne_zero_of_lt hfuel)
    rcases h with rfl | ⟨name, blank, f, rfl, hclosing, hstack⟩
    · rfl
    · exact nodesFrom_stop after stack offset fuel hclosing hstack
  | cons s ss =>
    obtain ⟨hs, hss⟩ := h
    have happ : Shape.allText (s :: ss) ++ f = s.text ++ (Shape.allText ss ++ f) := by
      simp [Shape.allText]
    have hlt : (Shape.allText ss ++ f).length < (s.text ++ (Shape.allText ss ++ f)).length := by
      have := List.length_pos_iff.mpr hs.text_ne_nil
      simp only [List.length_append]
      omega
    rw [happ] at ih
    have hfirst : Reads after stack offset s (Shape.allText ss ++ f) := by
      cases s with
      | plain t => exact .plain hs
      | comment body closed => exact .comment hs
      | interpolation body closed => exact .interpolation hs
      | stray name blank => exact .stray hs
      | element tag children close =>
        exact .element hs fun hinner => ih _ (Shape.length_inner_lt ..) hinner _ rfl
    obtain ⟨before, hbefore, hread⟩ := hfirst
    obtain ⟨errors, hstrays, hrest⟩ := ih _ hlt hss (offset + s.text.size) rfl
    refine ⟨before ++ errors, by simp [hbefore, hstrays, Shape.allStrays], fun fuel hfuel => ?_⟩
    obtain ⟨fuel, rfl⟩ := Nat.exists_eq_succ_of_ne_zero (Nat.ne_zero_of_lt hfuel)
    rw [happ] at hfuel ⊢
    rw [hread fuel (by omega), hrest fuel (by omega)]
    simp [Shape.allNodes, Shape.allText, Nat.add_assoc]

theorem textLength_pos {text : Text} (h : text ≠ []) : 0 < textLength text := by
  cases text with
  | nil => exact absurd rfl h
  | cons c cs =>
    rw [textLength]
    omega

theorem textLength_le (text : Text) : textLength text ≤ text.length := by
  have hmore : ∀ cs : Text, textLength.more cs ≤ cs.length := by
    intro cs
    induction cs with
    | nil => simp [textLength.more]
    | cons c cs ih =>
      rw [textLength.more]
      split
      · omega
      · simp only [List.length_cons]
        omega
  cases text with
  | nil => simp [textLength]
  | cons c cs =>
    have := hmore cs
    simp only [textLength, List.length_cons]
    omega

theorem exists_closeFits (name text : Text) :
    ∃ close f, text = Shape.closeText name close ++ f ∧ Shape.CloseFits name close f := by
  by_cases h : ∃ blank f, text = closingText name blank ++ f ∧ IsClosing name blank
  · obtain ⟨blank, f, rfl, hclosing⟩ := h
    exact ⟨some blank, f, rfl, hclosing.blank⟩
  · exact ⟨none, text, rfl, fun blank f htext hclosing => h ⟨blank, f, htext, hclosing⟩⟩

theorem exists_rawFits (name text : Text) :
    ∃ children f, text = Shape.allText children ++ f ∧ Shape.RawFits name children f := by
  have htext : ∀ body : Text, Shape.allText (if body = [] then [] else [.plain body]) = body := by
    intro body
    split <;> simp_all [Shape.allText, Shape.text]
  cases hcut : Text.cutAt? (['<', '/'] ++ name) text with
  | none => exact ⟨_, [], by rw [htext, List.append_nil], text, rfl, .inr ⟨rfl, hcut⟩⟩
  | some cut =>
    obtain ⟨body, f⟩ := cut
    obtain ⟨rfl, -⟩ := Text.cutAt?_eq_some hcut
    exact ⟨_, f, by rw [htext], body, rfl, .inl hcut⟩

/-- Every text is of this form up to its end or to a closing tag of the stack. -/
theorem exists_shapes (stack : List String) (text : Text) :
    ∃ ss f, text = Shape.allText ss ++ f ∧ Shape.AllFit stack ss f := by
  induction hn : text.length using Nat.strong_induction_on generalizing stack text with
  | _ n ih =>
  subst hn
  -- what follows the first part is shorter
  have cons : ∀ (s : Shape) (rest : Text), text = s.text ++ rest → s.Fits stack rest →
      ∃ ss f, text = Shape.allText ss ++ f ∧ Shape.AllFit stack ss f := by
    intro s rest htext hs
    have hlt : rest.length < text.length := by
      have := List.length_pos_iff.mpr hs.text_ne_nil
      rw [htext, List.length_append]
      omega
    obtain ⟨ss, f, rfl, hss⟩ := ih rest.length hlt stack rest rfl
    exact ⟨s :: ss, f, by simpa [Shape.allText] using htext, hs, hss⟩
  by_cases hnil : text = []
  · exact ⟨[], [], by simp [Shape.allText, hnil], .inl rfl⟩
  cases hcomment : Text.after? ['<', '!', '-', '-'] text with
  | some rest =>
    obtain ⟨body, closed, f, rfl, hcloses⟩ := exists_closes Shape.commentMark rest
    refine cons (.comment body closed) f ?_ hcloses
    simpa [Shape.text] using Text.after?_eq_some hcomment
  | none =>
  by_cases hclosing : ∃ name blank f, text = closingText name blank ++ f ∧ IsClosing name blank
  · obtain ⟨name, blank, f, htext, hclosing⟩ := hclosing
    by_cases hstack : String.ofList name ∈ stack
    · exact ⟨[], text, rfl, .inr ⟨name, blank, f, htext, hclosing, hstack⟩⟩
    · exact cons (.stray name blank) f htext ⟨hclosing, hstack⟩
  by_cases htag : ∃ (s : TagShape) (f : Text), text = s.text ++ f ∧ s.Fits f
  · obtain ⟨s, rest, rfl, hfits⟩ := htag
    have hpos : s.text ≠ [] := by simp [TagShape.text]
    have element : ∀ (children : List Shape) (close : Option Text) (f : Text),
        rest = Shape.allText children ++ (Shape.closeText s.name close ++ f) →
        (if Shape.isChildless s then children = [] ∧ close = none
          else Shape.CloseFits s.name close f ∧
            if isRawElement (String.ofList s.name) then
              Shape.RawFits s.name children (Shape.closeText s.name close ++ f)
            else Shape.AllFit (String.ofList s.name :: stack) children
              (Shape.closeText s.name close ++ f)) →
        ∃ ss f, s.text ++ rest = Shape.allText ss ++ f ∧ Shape.AllFit stack ss f := by
      intro children close f hrest hinner
      refine cons (.element s children close) f ?_ ⟨hrest ▸ hfits, hinner⟩
      simp [Shape.text, hrest]
    by_cases hc : Shape.isChildless s = true
    · refine element [] none rest (by simp [Shape.allText, Shape.closeText]) ?_
      rw [if_pos hc]
      exact ⟨rfl, rfl⟩
    · by_cases hraw : isRawElement (String.ofList s.name) = true
      · obtain ⟨children, g, rfl, hchildren⟩ := exists_rawFits s.name rest
        obtain ⟨close, f, rfl, hclose⟩ := exists_closeFits s.name g
        refine element children close f rfl ?_
        rw [if_neg hc, if_pos hraw]
        exact ⟨hclose, hchildren⟩
      · have hlt : rest.length < (s.text ++ rest).length := by
          have := List.length_pos_iff.mpr hpos
          rw [List.length_append]
          omega
        obtain ⟨children, g, rfl, hchildren⟩ :=
          ih rest.length hlt (String.ofList s.name :: stack) rest rfl
        obtain ⟨close, f, rfl, hclose⟩ := exists_closeFits s.name g
        refine element children close f rfl ?_
        rw [if_neg hc, if_neg hraw]
        exact ⟨hclose, hchildren⟩
  have hno : NoTag text := fun s f htext hfits => htag ⟨s, f, htext, hfits⟩
  have plain : (startsTag text = true ∧ NoTag text ∨
      startsTag text = false ∧ Text.after? ['{', '{'] text = none) →
      ∃ ss f, text = Shape.allText ss ++ f ∧ Shape.AllFit stack ss f := by
    intro hother
    have hle := textLength_le text
    have hpos := textLength_pos hnil
    have happ := List.take_append_drop (textLength text) text
    have hne : text.take (textLength text) ≠ [] := by
      intro h0
      have := congrArg List.length h0
      simp only [List.length_take, List.length_nil] at this
      omega
    refine cons (.plain (text.take (textLength text))) (text.drop (textLength text)) happ.symm
      ⟨hne, ?_, ?_⟩
    · rw [happ]
      exact ⟨hcomment, fun name blank f htext hc => hclosing ⟨name, blank, f, htext, hc⟩, hother⟩
    · rw [happ, List.length_take]
      omega
  cases hstarts : startsTag text with
  | true => exact plain (.inl ⟨hstarts, hno⟩)
  | false =>
    cases hopen : Text.after? ['{', '{'] text with
    | none => exact plain (.inr ⟨hstarts, hopen⟩)
    | some rest =>
      obtain ⟨body, closed, f, rfl, hcloses⟩ := exists_closes Shape.interpolationMark rest
      refine cons (.interpolation body closed) f ?_ hcloses
      simpa [Shape.text] using Text.after?_eq_some hopen

theorem parse_nodes {source : Text} {lo hi : Nat} (hlo : lo ≤ hi) (hhi : hi ≤ source.size)
    (htext : source.slice lo hi = Shape.allText ss) (h : Shape.AllFit [] ss []) :
    (parse source ⟨lo, hi⟩).1.nodes = Shape.allNodes lo ss := by
  have hstop : min hi source.size = hi := Nat.min_eq_left hhi
  have hstart : min lo hi = lo := Nat.min_eq_left hlo
  simp only [parse, hstop, hstart, htext]
  obtain ⟨errors, -, hread⟩ := nodesFrom_eq ((source.drop? hi).getD []) h lo
  rw [List.append_nil] at hread
  rw [hread _ (Nat.lt_succ_self _)]

theorem exists_of_parse (source : Text) {lo hi : Nat} (hlo : lo ≤ hi) (hhi : hi ≤ source.size) :
    ∃ ss, source.slice lo hi = Shape.allText ss ∧ Shape.AllFit [] ss [] ∧
      (parse source ⟨lo, hi⟩).1.nodes = Shape.allNodes lo ss := by
  obtain ⟨ss, f, htext, h⟩ := exists_shapes [] (source.slice lo hi)
  obtain rfl := h.stops.eq_nil
  rw [List.append_nil] at htext
  exact ⟨ss, htext, h, parse_nodes hlo hhi htext h⟩

end Template

end SfcTsx.Markup
