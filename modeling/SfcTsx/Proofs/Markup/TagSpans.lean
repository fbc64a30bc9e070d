import SfcTsx.Markup.Block
import SfcTsx.Proofs.Markup.StartTag

namespace SfcTsx

namespace Markup

variable {f : Text} {offset : Nat} {items : List TagItem}

/-- A value stands in quotes that it does not hold, or needs none; its attribute ends with it. -/
def Value.Delimited (source : Text) (stop : Nat) (v : Value) : Prop :=
  (∃ q, IsQuote q ∧ q ∉ v.content ∧ stop = v.span.stop + 1 ∧
    Span.Spells ⟨v.span.start - 1, stop⟩ source (q :: (v.content ++ [q]))) ∨
  (v.content ≠ [] ∧ stop = v.span.stop ∧ ∀ c ∈ v.content,
    Text.isTagSpace c = false ∧ ¬ IsQuote c ∧ c ≠ '<' ∧ c ≠ '>' ∧ c ≠ '=')

/-- An attribute whose parts are what the source has at their spans. -/
structure RawAttr.Read (source : Text) (r : RawAttr) : Prop where
  name : r.nameSpan.Spells source r.name.toList
  name_start : r.nameSpan.start = r.span.start
  name_lt : r.nameSpan.start < r.nameSpan.stop
  value : ∀ v ∈ r.value, r.nameSpan.stop < v.span.start ∧ v.span.Spells source v.content ∧
    v.Delimited source r.span.stop
  bare : r.value = none → r.span.stop = r.nameSpan.stop

/-- A start tag whose parts are what the source has at their spans, in order. -/
structure StartTag.Read (source : Text) (tag : StartTag) : Prop where
  text : ∃ inner, tag.span.Spells source ('<' :: (tag.name.toList ++ (inner ++ ['>'])))
  name : tag.nameSpan = ⟨tag.span.start + 1, tag.span.start + 1 + Text.size tag.name.toList⟩
  attrs : ∀ r ∈ tag.attrs, r.Read source ∧ tag.nameSpan.stop ≤ r.span.start ∧
    r.span.stop < tag.span.stop
  order : tag.attrs.Pairwise fun r s => r.span.stop ≤ s.span.start

section
variable {source rest : Text}

theorem StartTag.Glued.chars {m : Text} (h : Glued m f) : ∀ c ∈ m,
    Text.isTagSpace c = false ∧ ¬ IsQuote c ∧ c ≠ '<' ∧ c ≠ '>' ∧ c ≠ '=' := by
  induction m with
  | nil => simp
  | cons c m ih =>
    intro d hd
    rcases List.mem_cons.mp hd with rfl | hd
    · by_cases hslash : d = '/'
      · subst hslash
        exact ⟨rfl, (by rintro (h | h) <;> cases h), by decide, by decide, by decide⟩
      · have hname := h.1
        rw [gluing_of_ne hslash] at hname
        obtain ⟨h1, h2, h3, h4, h5, h6, -⟩ := Lexed.isNameChar_cases hname
        exact ⟨h1, not_or.mpr ⟨h2, h3⟩, h4, h5, h6⟩
    · exact ih h.2 d hd

theorem Assigned.at_value {a : Assigned} {lo : Nat} (hat : source.At lo (a.text ++ rest)) :
    source.At (a.start lo) (a.value.text ++ rest) := by
  have hequals : ('=' : Char).utf8Size = 1 := rfl
  have h : source.At lo ((a.before ++ '=' :: a.behind) ++ (a.value.text ++ rest)) := by
    simpa [text] using hat
  have hskip := h.skip
  simp only [Text.size_append, Text.size_cons, hequals] at hskip
  simpa [start, Nat.add_assoc] using hskip

theorem Written.read_value {w : Written} {n : Nat} (h : w.Fits f)
    (hat : source.At n (w.text ++ rest)) :
    (w.value n).span.Spells source w.content ∧ (w.value n).Delimited source (n + w.text.size) := by
  cases w with
  | quoted q c =>
    have hone := h.1.utf8Size
    have hinner : source.At (n + 1) (c ++ ([q] ++ rest)) := by
      have hq : source.At n ([q] ++ (c ++ ([q] ++ rest))) := by simpa [text] using hat
      simpa [hone] using hq.skip
    have hstop : n + (Written.quoted q c).text.size = n + 1 + c.size + 1 := by
      simp [text, hone]
      omega
    exact ⟨⟨rfl, _, hinner⟩, .inl ⟨q, h.1, h.2, hstop, rfl, rest, hat⟩⟩
  | bare c => exact ⟨⟨rfl, rest, hat⟩, .inr ⟨h.1, rfl, h.2.chars⟩⟩

theorem TagItem.read_rawAttr {n : Text} {a : Option Assigned} {start : Nat} (hn : n ≠ [])
    (ha : AssignedFits a f) (hat : source.At start (n ++ (assignedText a ++ rest))) :
    (rawAttr n start a).Read source := by
  have hpos := Text.size_pos hn
  refine ⟨⟨by simp [rawAttr], _, by simpa [rawAttr] using hat⟩, rfl, ?_, ?_, ?_⟩
  · simp only [rawAttr]
    omega
  · intro v hv
    cases a with
    | none => cases hv
    | some a =>
      obtain rfl : a.value.value (a.start (start + n.size)) = v := by simpa [rawAttr] using hv
      obtain ⟨hspells, hdelimited⟩ := Written.read_value ha.value (Assigned.at_value hat.skip)
      refine ⟨?_, hspells, ?_⟩
      · simp only [rawAttr, Written.value, Assigned.start]
        omega
      · rw [← a.size_text] at hdelimited
        exact hdelimited
  · intro hv
    cases a with
    | none => simp [rawAttr, assignedText]
    | some a => cases hv

theorem TagItem.exists_of_mem_rawAttrs {r : RawAttr} (h : AllFit items f)
    (hr : r ∈ rawAttrs offset items) :
    ∃ front n a back, allText items = front ++ (n ++ (assignedText a ++ back)) ∧ n ≠ [] ∧
      AssignedFits a (back ++ f) ∧ r = rawAttr n (offset + front.size) a := by
  induction items generalizing offset with
  | nil => cases hr
  | cons i items ih =>
    rw [rawAttrs, List.mem_append] at hr
    rcases hr with hr | hr
    · cases i with
      | slash b => cases hr
      | attr b n a =>
        exact ⟨b, n, a, allText items, by simp [text], h.1.2.1.ne_nil, h.1.2.2,
          by simpa [rawAttr?] using hr⟩
    · obtain ⟨front, n, a, back, heq, hn, ha, rfl⟩ := ih h.2 hr
      exact ⟨i.text ++ front, n, a, back, by simp [heq], hn, ha, by simp [Nat.add_assoc]⟩

theorem TagItem.rawAttrs_between {r : RawAttr} (h : AllFit items f) (hr : r ∈ rawAttrs offset items) :
    offset ≤ r.span.start ∧ r.span.stop ≤ offset + (allText items).size := by
  obtain ⟨front, n, a, back, heq, -, -, rfl⟩ := exists_of_mem_rawAttrs h hr
  simp only [rawAttr, heq, Text.size_append]
  omega

theorem TagItem.pairwise_rawAttrs (h : AllFit items f) (offset : Nat) :
    (rawAttrs offset items).Pairwise fun r s => r.span.stop ≤ s.span.start := by
  induction items generalizing offset with
  | nil => exact .nil
  | cons i items ih =>
    cases i with
    | slash b => exact ih h.2 _
    | attr b n a =>
      refine List.pairwise_cons.mpr ⟨fun r hr => ?_, ih h.2 _⟩
      have hle := (rawAttrs_between h.2 hr).1
      simpa [rawAttr, text, Nat.add_assoc] using hle

theorem TagShape.at_items {s : TagShape} (hat : source.At offset (s.text ++ rest)) :
    source.At (offset + 1 + s.name.size) (TagItem.allText s.items ++
      ((s.blank ++ StartTag.closing s.selfClosing) ++ rest)) := by
  have hone : ('<' : Char).utf8Size = 1 := rfl
  have hname : source.At offset (('<' :: s.name) ++ (s.tail ++ rest)) := by simpa [text] using hat
  simpa [hone, tail, Nat.add_assoc] using hname.skip

theorem TagShape.read_startTag {s : TagShape} (h : s.Fits f) (hat : source.At offset (s.text ++ f)) :
    (s.startTag offset).Read source := by
  obtain ⟨last, hlast⟩ := StartTag.exists_closing s.blank s.selfClosing
  have hitems := at_items hat
  refine ⟨⟨TagItem.allText s.items ++ last, ?_, f, ?_⟩, ?_, ?_, TagItem.pairwise_rawAttrs h.items _⟩
  · simp [startTag, text, tail, hlast]
  · simpa [startTag, text, tail, hlast] using hat
  · simp [startTag]
  · intro r hr
    obtain ⟨hlo, hhi⟩ := TagItem.rawAttrs_between h.items hr
    obtain ⟨front, n, a, back, heq, hn, ha, rfl⟩ := TagItem.exists_of_mem_rawAttrs h.items hr
    have hpos : 0 < Text.size (last ++ ['>']) := Text.size_pos (by simp)
    have hsize := s.size_text
    rw [hlast] at hsize
    simp only [heq, List.append_assoc] at hitems
    refine ⟨TagItem.read_rawAttr hn ha hitems.skip, hlo, ?_⟩
    simp only [startTag, hsize]
    omega

theorem StartTag.scan_blank {b : Text} (hb : Blank b) (offset : Nat) (t : Text) :
    scan offset (b ++ t) = scan (offset + b.size) t := by
  have hnext : Token.next offset (b ++ t) = Token.next (offset + b.size) t := by
    obtain ⟨b', k, u, f, rfl, hb', hk⟩ := Lexed.exists_next t
    have hblank : Blank (b ++ b') := fun c hc => (List.mem_append.mp hc).elim (hb c) (hb' c)
    rw [← List.append_assoc, Lexed.next_eq hblank hk, Lexed.next_eq hb' hk]
    simp [Nat.add_assoc]
  simp only [scan, hnext]

theorem StartTag.exists_of_scan {t : Text} {tag : StartTag} (h : scan offset t = .ok tag) :
    ∃ b s f, t = b ++ (TagShape.text s ++ f) ∧ Blank b ∧ s.Fits f ∧
      tag = s.startTag (offset + b.size) := by
  obtain ⟨b, k, u, f, rfl, hb, hk⟩ := Lexed.exists_next t
  have hkind : k = .openAngle := by
    by_contra hne
    rw [scan, Lexed.next_eq hb hk] at h
    simp [hne] at h
  subst hkind
  cases hk with
  | openAngle hf =>
    rw [scan_blank hb] at h
    obtain ⟨s, g, htext, hfits, rfl⟩ := TagShape.exists_of_scan h
    exact ⟨b, s, g, congrArg _ htext, hb, hfits, rfl⟩

end

/-- The parts of a start tag that is read are those of the source. Any other source with the same text
in the span of the tag has the same tag there, with nothing or only blanks in front of it. -/
theorem StartTag.scan_self_delimiting {source : Text} {start : Nat} {tag : StartTag}
    (h : scan start (skipTo 0 start source) = .ok tag) :
    tag.Read source ∧ (∃ blank, Blank blank ∧ Span.Spells ⟨start, tag.span.start⟩ source blank) ∧
      ∀ other text, tag.span.Spells source text → tag.span.Spells other text →
        (start = tag.span.start ∨
          ∃ blank, Blank blank ∧ Span.Spells ⟨start, tag.span.start⟩ other blank) →
        scan start (skipTo 0 start other) = .ok tag := by
  obtain ⟨b, s, f, heq, hb, hfits, rfl⟩ := exists_of_scan h
  have hat : source.At start (b ++ (s.text ++ f)) := by
    cases hdrop : source.drop? start with
    | none => simp [skipTo, hdrop, TagShape.text] at heq
    | some t =>
      obtain ⟨front, hfront⟩ := Text.exists_append_of_drop? hdrop
      obtain rfl : t = _ := by simpa [skipTo, hdrop] using heq
      exact ⟨front, hfront⟩
  refine ⟨TagShape.read_startTag hfits hat.skip, ⟨b, hb, rfl, _, hat⟩, ?_⟩
  rintro other text ⟨hsize, rest, htext⟩ ⟨-, g, hother⟩ hgap
  obtain rfl : text = s.text := by
    have hsame := htext.unique hat.skip
    have hlen := congrArg Text.size hsame
    have hstop : s.text.size = text.size := by simpa [TagShape.startTag] using hsize
    rw [Text.size_append, Text.size_append] at hlen
    exact (Text.append_inj_of_size hsame (by omega)).1
  obtain ⟨blank, hblank, hsize', hfront⟩ : ∃ blank, Blank blank ∧ blank.size = b.size ∧
      other.At start (blank ++ (s.text ++ g)) := by
    rcases hgap with hstart | ⟨blank, hblank, hstop, rest', hrest⟩
    · have hnil : b.size = 0 := by simpa [TagShape.startTag] using hstart
      exact ⟨[], by simp [Blank], hnil.symm, hstart ▸ hother⟩
    · have hstop' : blank.size = b.size := by simpa [TagShape.startTag, eq_comm] using hstop
      have hplace := hrest.skip
      rw [hstop'] at hplace
      exact ⟨blank, hblank, hstop', hplace.unique hother ▸ hrest⟩
  have hskip : skipTo 0 start other = blank ++ (s.text ++ g) := by simp [skipTo, hfront.drop?]
  rw [hskip, scan_blank hblank, hsize', TagShape.scan_eq (hfits.congr g)]

theorem StartTag.scan_self_delimiting_quoted :
    let tag : StartTag :=
      ⟨"a", ⟨2, 3⟩, [⟨"b", ⟨4, 5⟩, some ⟨['>'], ⟨7, 8⟩⟩, ⟨4, 9⟩⟩], ⟨1, 10⟩, false⟩
    scan 0 (skipTo 0 0 (" <a b='>'><c d='" : String)) = .ok tag ∧
      scan 0 (skipTo 0 0 ("\n<a b='>'>é" : String)) = .ok tag := by
  intro tag
  have h : scan 0 (skipTo 0 0 (" <a b='>'><c d='" : String)) = .ok tag := rfl
  refine ⟨h, (scan_self_delimiting h).2.2 _ ("<a b='>'>" : String) ?_ ?_
    (.inr ⟨['\n'], by simp [Blank, Text.isTagSpace], ?_⟩)⟩
  · exact ⟨by decide, ("<c d='" : String), [' '], by decide, by decide⟩
  · exact ⟨by decide, ['é'], ['\n'], by decide, by decide⟩
  · exact ⟨by decide, ("<a b='>'>é" : String), [], by decide, by decide⟩

/-- What stands in front of a tag decides whether it is read, and a value without quotes may hold a blank
that ends no token. -/
theorem StartTag.scan_depends_on_front :
    (∃ tag, scan 0 (skipTo 0 0 (" <a>" : String)) = .ok tag ∧
      tag.span.Spells (" <a>" : String).toList ("<a>" : String).toList ∧
      tag.span.Spells ("x<a>" : String).toList ("<a>" : String).toList ∧
      scan 0 (skipTo 0 0 ("x<a>" : String)) ≠ .ok tag) ∧
    ∃ tag r v, scan 0 (skipTo 0 0 ("<a b=x\u00a0y>" : String)) = .ok tag ∧ r ∈ tag.attrs ∧
      v ∈ r.value ∧ r.span.stop = v.span.stop ∧ v.content.any Text.isSpace = true := by
  refine ⟨⟨⟨"a", ⟨2, 3⟩, [], ⟨1, 4⟩, false⟩, rfl, ?_, ?_, nofun⟩, _, _, _, rfl, .head _, rfl, rfl, rfl⟩
  · exact ⟨by decide, [], [' '], by decide, by decide⟩
  · exact ⟨by decide, [], ['x'], by decide, by decide⟩

end Markup
end SfcTsx
