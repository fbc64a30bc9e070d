import SfcTsx.Proofs.Markup.Openings

namespace SfcTsx.Markup

open Text (At)
open Template (Closes delimitedText)

variable {name c f u : Text} {tag : TagShape}

def nestedAt (name : Text) (depth offset : Nat) (t : Text) : Option Span :=
  nestedCloseFrom name (t.length + 1) depth offset t

theorem nestedCloseFrom_fuel {fuel : Nat} (h : f.length < fuel) (depth offset : Nat) :
    nestedCloseFrom name fuel depth offset f = nestedAt name depth offset f := by
  have hshift := nestedCloseFrom_shift name h (Nat.lt_succ_self _) depth offset 0
  simpa [Span.shift, nestedAt] using hshift

theorem Mark.nestedAt_eq {m : Mark} (h : m.Fits name f) (depth offset : Nat) :
    nestedAt name depth offset (m.text name ++ f) = m.next name (f.length + 1) depth offset f := by
  have hpos := List.length_pos_iff.mpr (m.text_ne_nil name)
  have hlen : f.length < (m.text name ++ f).length := by
    rw [List.length_append]
    omega
  rw [nestedAt, nestedCloseFrom_eq h]
  cases m with
  | closing blank =>
    cases depth with
    | zero => rfl
    | succ depth => exact nestedCloseFrom_fuel hlen _ _
  | _ => exact nestedCloseFrom_fuel hlen _ _

/-- No bracket in the text begins something that the search reads. -/
def Quiet (name u : Text) : Prop := ∀ p r, u = p ++ '<' :: r → ∀ f, Mark.angle.Fits name (r ++ f)

theorem Quiet.nestedAt_eq (h : Quiet name u) (depth offset : Nat) (f : Text) :
    nestedAt name depth offset (u ++ f) = nestedAt name depth (offset + u.size) f := by
  induction u generalizing offset with
  | nil => rfl
  | cons d u ih =>
    have hstep : nestedAt name depth offset (d :: (u ++ f)) =
        nestedAt name depth (offset + d.utf8Size) (u ++ f) := by
      by_cases hd : d = '<'
      · subst hd
        exact Mark.nestedAt_eq (h [] u rfl f) depth offset
      · refine .trans ?_ (@nestedCloseFrom_fuel _ _ ((u ++ f).length + 2) (by omega) _ _)
        rw [nestedAt, nestedCloseFrom, nestedCloseFrom]
        simp [hd, Nat.add_assoc]
    rw [List.cons_append, hstep, ih fun p r hp => h (d :: p) r (by rw [hp]; rfl), Text.size_cons,
      Nat.add_assoc]

def TagShape.template : TagShape := ⟨("template" : String).toList, [], [], false⟩

open TagShape (template)

theorem template_fits (f : Text) : template.Fits f :=
  ⟨rfl, ⟨by decide, List.all_eq_true.mp rfl, by rintro c ⟨⟩; rfl⟩, trivial, by rintro c ⟨⟩⟩

/-- No part of the text reads like a comment or a tag of a template. -/
def Foreign (u : Text) : Prop := ∀ word ∈ ["<!--", "<template", "</template"], ¬ word.toList <:+: u

/-- What a template may contain: texts without a bracket, comments up to the first mark that ends one,
and elements that are closed. -/
inductive Content : Text → Prop
  | nil : Content []
  | text {p c : Text} (hp : '<' ∉ p) (hc : Content c) : Content (p ++ c)
  | comment {body c : Text} (hb : Closes ("-->" : String) body true []) (hc : Content c) :
      Content (("<!--" : String).toList ++ (body ++ (("-->" : String).toList ++ c)))
  | single {tag : TagShape} {c : Text} (ht : tag.Fits []) (hs : tag.selfClosing = true)
      (hq : tag.name = template.name ∨ Foreign tag.text) (hc : Content c) : Content (tag.text ++ c)
  | element {tag : TagShape} {blank inner c : Text} (ht : tag.Fits []) (hs : tag.selfClosing = false)
      (hb : ∀ c ∈ blank, Text.isSpace c = true)
      (hq : tag.name = template.name ∨ Foreign tag.text ∧ Foreign (closingText tag.name blank))
      (hi : Content inner) (hc : Content c) :
      Content (tag.text ++ (inner ++ (closingText tag.name blank ++ c)))

theorem Foreign.quiet (h : Foreign u) (hend : ['>'] <:+ u) : Quiet template.name u := by
  rintro p r rfl f
  have hend : ['>'] <:+ '<' :: r :=
    List.suffix_of_suffix_length_le hend (List.suffix_append p _) (by simp)
  have hnone : ∀ word ∈ ["<!--", "<template", "</template"],
      Text.after? word.toList ('<' :: (r ++ f)) = none := by
    intro word hword
    have hnot : ∀ word ∈ ["<!--", "<template", "</template"], '>' ∉ word.toList := by decide
    cases hafter : Text.after? word.toList ('<' :: (r ++ f)) with
    | none => rfl
    | some w =>
      have hprefix : word.toList <+: '<' :: (r ++ f) := ⟨w, (Text.after?_eq_some hafter).symm⟩
      rcases List.prefix_or_prefix_of_prefix hprefix (List.prefix_append ('<' :: r) f) with hin | hout
      · exact absurd (hin.isInfix.trans (List.suffix_append p _).isInfix) (h word hword)
      · -- no word has the bracket that ends the text
        exact absurd (hout.subset (hend.subset (by simp))) (hnot word hword)
  have hclose : Text.after? (("</" : String) ++ template.name) ('<' :: (r ++ f)) = none :=
    hnone "</template" (by simp)
  have hopen : Text.after? template.name (r ++ f) = none := hnone "<template" (by simp)
  refine ⟨hnone "<!--" (by simp), by rw [closeTagAt?, hclose]; rfl, fun hhas => ?_⟩
  rw [StartTag.hasName, hopen] at hhas
  cases hhas

theorem Foreign.nestedAt_text (h : Foreign tag.text) (depth offset : Nat) (f : Text) :
    nestedAt template.name depth offset (tag.text ++ f) =
      nestedAt template.name depth (offset + tag.text.size) f := by
  obtain ⟨v, hv⟩ := tag.exists_tail
  exact (h.quiet ⟨'<' :: (tag.name ++ v), by simp [TagShape.text, hv]⟩).nestedAt_eq depth offset f

theorem nestedAt_template (h : tag.Fits []) (hname : tag.name = template.name) (depth offset : Nat)
    (f : Text) : nestedAt template.name depth offset (tag.text ++ f) = nestedAt template.name
      (if tag.selfClosing then depth else depth + 1) (offset + tag.text.size) f :=
  have hhas := (TagShape.hasName_iff (h.congr f) (template_fits f).name.chars).mpr hname.symm
  Mark.nestedAt_eq (m := .opening tag) ⟨h.congr f, hhas⟩ depth offset

theorem Content.nestedAt_eq (h : Content c) (depth offset : Nat) (f : Text) :
    nestedAt template.name depth offset (c ++ f) = nestedAt template.name depth (offset + c.size) f := by
  induction h generalizing depth offset f with
  | nil => rfl
  | @text p c hp hc ih =>
    have hq : Quiet template.name p := by
      rintro q r rfl
      simp at hp
    rw [List.append_assoc, hq.nestedAt_eq, ih, Text.size_append, Nat.add_assoc]
  | @comment body c hb hc ih =>
    have hstep := @Mark.nestedAt_eq template.name _ (.comment body true) (hb.congr (c ++ f)) depth offset
    simp only [Mark.next, Mark.text_comment, delimitedText, if_true, List.append_assoc] at hstep
    simp only [List.append_assoc, hstep]
    exact (ih depth _ f).trans (by simp [Nat.add_assoc])
  | single ht hs hq hc ih =>
    rw [List.append_assoc, Text.size_append, ← Nat.add_assoc, ← ih]
    obtain hname | hq := hq
    · rw [nestedAt_template ht hname, if_pos hs]
    · exact hq.nestedAt_text depth offset _
  | @element tag blank inner c ht hs hb hq hi hc ihi ihc =>
    simp only [List.append_assoc, Text.size_append, ← Nat.add_assoc, ← ihc]
    obtain hname | ⟨hq, hq'⟩ := hq
    · -- a template inside goes one level down, and its closing tag up again
      rw [nestedAt_template ht hname, hs, if_neg Bool.false_ne_true, ihi, hname]
      exact Mark.nestedAt_eq (m := .closing blank) hb (depth + 1) _
    · have hend : ['>'] <:+ closingText tag.name blank :=
        ⟨'<' :: '/' :: (tag.name ++ blank), by simp [closingText]⟩
      rw [hq.nestedAt_text, ihi, (hq'.quiet hend).nestedAt_eq]

def templateSource (c : Text) : Text :=
  ("<template>" : String).toList ++ (c ++ ("</template>" : String).toList)

section document
variable (c)

def templateBlock : RawBlock := ⟨"template", ⟨10, 10 + c.size⟩, ⟨10 + c.size, 21 + c.size⟩⟩

theorem templateSource_eq :
    templateSource c = template.text ++ (c ++ closingText template.name []) := rfl

theorem size_startTag : template.text.size = 10 := rfl

theorem size_closingTag : (closingText template.name []).size = 11 := rfl

theorem size_templateSource : (templateSource c).size = 21 + c.size := by
  rw [templateSource_eq, Text.size_append, Text.size_append, size_startTag, size_closingTag]
  omega

theorem scanBlocks_templateSource (h : Content c) (hblank : Text.isBlank c = false) :
    scanBlocks ((templateSource c).length + 1) 0 (templateSource c) = ([templateBlock c], []) := by
  have hclose : closeFrom template.name 0 (c ++ (closingText template.name [] ++ [])) =
      some ⟨c.size, c.size + (closingText template.name []).size⟩ := by
    refine (h.nestedAt_eq 0 0 _).trans ?_
    rw [Nat.zero_add]
    exact Mark.nestedAt_eq (m := .closing []) (List.forall_mem_nil _) 0 c.size
  have hextent := @blockExtent_eq _ _ _ _ true hclose 0
  have hskip := skipTo_append 10 (c ++ closingText template.name []) []
  simp only [List.append_nil, Text.size_append, size_startTag, size_closingTag, Nat.zero_add, if_true,
    ← Nat.add_assoc] at hextent hskip
  rw [templateSource_eq, Piece.scanBlocks_tag (template_fits _), if_neg (by decide)]
  simp only [Nat.zero_add, size_startTag, hextent, Span.len, Nat.add_sub_cancel_left,
    Text.take?_size_append, Option.getD_some, hblank, Bool.false_and, hskip,
    scanBlocks_none (t := []) List.not_mem_nil]
  rw [Nat.add_right_comm]
  rfl

theorem covers_templateBlock {s : Span}
    (hs : s ∈ commentsFrom ((templateSource c).length + 1) 0 (templateSource c)) :
    (templateBlock c).covers s.start = true := by
  obtain ⟨t, ht⟩ := commentsFrom_at (At.zero (templateSource c)) hs
  have hpos : 0 < Text.size (("<!--" : String).toList ++ t) := Text.size_pos (by simp)
  have hsize := ht.le_size.trans (size_templateSource c)
  have hge : 10 ≤ s.start := by
    by_contra hlt
    obtain ⟨p, hp, hstart⟩ := ht
    have hsame := eq_of_occurs_once (a := []) (b := template.text.tail) hp (by simp) (by decide)
      (show p.size < 10 by omega)
    cases hsame
  have hlt : s.start < 21 + c.size := by omega
  exact Bool.and_eq_true_iff.mpr ⟨decide_eq_true hge, decide_eq_true hlt⟩

theorem scanEmptyBlocks_templateSource (comments : List Span) :
    scanEmptyBlocks (templateSource c) comments [templateBlock c] = [] := by
  refine List.filterMap_eq_nil_iff.mpr fun found hfound => if_pos ?_
  obtain ⟨s, o, f, -, hat, -, rfl⟩ := (emptyElements_found _ (At.zero _)).1 found hfound
  have hpos : 0 < s.text.size := Text.size_pos (by simp [ElementShape.text, ElementShape.startTag])
  have hsize := hat.le_size.trans (size_templateSource c)
  rw [Text.size_append] at hsize
  have hge : 10 ≤ o + s.text.size := by
    by_contra hlt
    obtain ⟨p, hp, rfl⟩ := hat
    obtain ⟨d, hd, -⟩ := exists_append_of_size_le (a := ("<template" : String).toList)
      (hp.trans (List.append_assoc p s.text f).symm)
      (show Text.size (p ++ s.text) ≤ 9 by rw [Text.size_append]; omega)
    have hmem : '>' ∈ ("<template" : String).toList := by
      rw [hd]
      simp [ElementShape.text, ElementShape.closeTag]
    revert hmem
    decide
  have hlt : o < 21 + c.size := by omega
  simp [RawBlock.overlaps, templateBlock, hlt, hge]

theorem openTag?_templateSource :
    openTag? (templateSource c) ⟨0, 10⟩ (templateBlock c) [] = some (template.startTag 0) := by
  -- Nothing behind the start tag is looked at.
  have hsame : openTag? (templateSource c) ⟨0, 10⟩ (templateBlock c) [] =
      openTag? (template.text ++ []) ⟨0, 10⟩ (templateBlock []) [] :=
    openTag?_congr (b := templateBlock []) rfl le_rfl le_rfl rfl (by decide) fun _ _ => rfl
  rw [hsame]
  rfl

end document

/-- A template has exactly its content, whatever is kept, and nothing is wrong with it. -/
theorem parse_template_content (keepEmpty : Bool) {c : Text} (h : Content c)
    (hblank : Text.isBlank c = false) :
    Document.parse keepEmpty (templateSource c) =
      (⟨templateSource c, [⟨.template, "template", [], ⟨0, 10⟩, ⟨10 + c.size, 21 + c.size⟩,
        ⟨10, 10 + c.size⟩⟩], []⟩, []) := by
  have hcomments : (commentsFrom ((templateSource c).length + 1) 0 (templateSource c)).filter
      (fun s => !(templateBlock c).covers s.start) = [] := by
    simpa using fun s => covers_templateBlock c
  have hstart : (templateBlock c).content.start = 10 := rfl
  cases keepEmpty <;>
  · simp only [Document.parse, Bool.false_eq_true, if_true, if_false, scanBlocks_templateSource c h hblank,
      scanEmptyBlocks_templateSource, List.append_nil, List.mergeSort_singleton, List.any_cons, List.any_nil,
      Bool.or_false, hcomments, resolveAll, resolve, hstart, Nat.zero_le, Nat.max_eq_left,
      openTag?_templateSource]
    rfl

theorem parse_nested_template :
    (Document.parse true "<template><template>a</template></template>".toList).1.blocks.map (·.content) =
      [⟨10, 32⟩] := by
  have hcontent : Content (template.text ++ (['a'] ++ [] ++ (closingText template.name [] ++ []))) :=
    .element (template_fits []) rfl (List.forall_mem_nil _) (.inl rfl) (.text (by decide) .nil) .nil
  exact congrArg (fun found => found.1.blocks.map (·.content))
    (parse_template_content true hcontent rfl)

end SfcTsx.Markup
