import SfcTsx.Proofs.Markup.TagSpans
import SfcTsx.Proofs.Markup.Tree
import SfcTsx.View.Attribute

namespace SfcTsx.View

variable {source : Text} {lo : Nat}

open Markup

variable {f : Text} {offset n start : Nat} {t : Tag} {d : Directive} {c : Char}
  {a : Option Assigned} {head : Directive.Head}

/-- A value of an attribute whose name ends at `lo` and which itself ends at `hi`. -/
structure ValuePlaced (source : Text) (lo hi : Nat) (v : Value) : Prop where
  text : ∃ rest, source.At v.span.start (v.content ++ rest)
  stop_eq : v.span.stop = v.span.start + v.content.size
  fits : (isQuoted source v = true ∧ lo + 2 ≤ v.span.start ∧ v.span.stop + 1 = hi ∧
      source.isBoundary (v.span.start - 1) = true) ∨
    (isQuoted source v = false ∧ lo + 1 ≤ v.span.start ∧ v.span.start < v.span.stop ∧
      v.span.stop = hi)

structure AttrPlaced (source : Text) (span nameSpan : Span) (value : Option Value) : Prop where
  start_eq : nameSpan.start = span.start
  name_pos : span.start < nameSpan.stop
  name_le : nameSpan.stop ≤ span.stop
  start_at : source.isBoundary span.start = true
  name_at : source.isBoundary nameSpan.stop = true
  stop_at : source.isBoundary span.stop = true
  placed : ∀ v ∈ value, ValuePlaced source nameSpan.stop span.stop v
  bare : value = none → span.stop = nameSpan.stop

structure ArgPlaced (source : Text) (lo hi : Nat) (a : DirectiveArg) : Prop where
  start_ge : lo ≤ a.span.start
  start_lt : a.span.start < a.span.stop
  stop_le : a.span.stop ≤ hi
  start_at : source.isBoundary a.span.start = true
  stop_at : source.isBoundary a.span.stop = true

structure DirectivePlaced (source : Text) (d : Directive) : Prop where
  attr : AttrPlaced source d.span d.nameSpan d.exp
  arg : ∀ a ∈ d.arg, ArgPlaced source (d.span.start + 1) d.nameSpan.stop a

def Placed (source : Text) : Attr → Prop
  | .plain a => AttrPlaced source a.span a.nameSpan a.value
  | .directive d => DirectivePlaced source d

section
variable {source rest : Text}

theorem valuePlaced_quoted {q : Char} {c : Text} (hq : IsQuote q) (hlo : lo + 1 ≤ n)
    (hat : source.At n (q :: (c ++ q :: rest))) :
    ValuePlaced source lo (n + 1 + c.size + 1) ⟨c, ⟨n + 1, n + 1 + c.size⟩⟩ := by
  have hone := hq.utf8Size
  have hbefore : source.slice n (n + 1) = [q] := by
    have h : source.At n ([q] ++ (c ++ q :: rest)) := hat
    simpa [hone] using h.slice
  have hcontent : source.At (n + 1) (c ++ q :: rest) := by
    have h : source.At n ([q] ++ (c ++ q :: rest)) := hat
    simpa [hone] using h.skip
  have hbehind : source.slice (n + 1 + c.size) (n + 1 + c.size + 1) = [q] := by
    have h : source.At (n + 1 + c.size) ([q] ++ rest) := hcontent.skip
    simpa [hone] using h.slice
  refine ⟨⟨_, hcontent⟩, rfl, .inl ⟨?_, by simp only; omega, rfl, ?_⟩⟩
  · simp only [isQuoted, Nat.add_sub_cancel, hbefore, hbehind]
    rcases hq with rfl | rfl <;> rfl
  · exact hat.isBoundary

theorem valuePlaced_bare {x : Char} {c : Text} (hx : ¬ IsQuote x) (hone : x.utf8Size = 1)
    (hlo : lo ≤ n) (hne : c ≠ []) (hat : source.At n (x :: (c ++ rest))) :
    ValuePlaced source lo (n + 1 + c.size) ⟨c, ⟨n + 1, n + 1 + c.size⟩⟩ := by
  have hbefore : source.slice n (n + 1) = [x] := by
    have h : source.At n ([x] ++ (c ++ rest)) := hat
    simpa [hone] using h.slice
  have hcontent : source.At (n + 1) (c ++ rest) := by
    have h : source.At n ([x] ++ (c ++ rest)) := hat
    simpa [hone] using h.skip
  have hpos := Text.size_pos hne
  refine ⟨⟨_, hcontent⟩, rfl, .inr ⟨?_, by simp only; omega, by simp only; omega, rfl⟩⟩
  have hd : x ≠ '"' := fun h => hx (.inl h)
  have hs : x ≠ '\'' := fun h => hx (.inr h)
  simp [isQuoted, hbefore, hd, hs]

theorem tagSpace_cases (h : Text.isTagSpace c = true) : ¬ IsQuote c ∧ c.utf8Size = 1 := by
  simp only [Text.isTagSpace, Bool.or_eq_true, beq_iff_eq] at h
  rcases h with (((rfl | rfl) | rfl) | rfl) | rfl <;> exact ⟨(by rintro (h | h) <;> cases h), rfl⟩

theorem valuePlaced {a : Assigned} (h : a.Fits f) (hat : source.At lo (a.text ++ rest)) :
    ValuePlaced source lo (lo + a.text.size) (a.value.value (a.start lo)) := by
  have hsize := a.size_text lo
  have hequals : ('=' : Char).utf8Size = 1 := rfl
  have hstart := Assigned.at_value hat
  rw [hsize]
  cases hw : a.value with
  | quoted q c =>
    have hfits := h.value
    rw [hw] at hfits hstart
    have hlo : lo + 1 ≤ a.start lo := by
      simp only [Assigned.start]
      omega
    have hplaced := valuePlaced_quoted hfits.1 hlo (by simpa [Written.text] using hstart)
    have hstop : a.start lo + 1 + Text.size c + 1 = a.start lo + (Written.quoted q c).text.size := by
      simp [Written.text, hfits.1.utf8Size]
      omega
    rw [← hstop]
    exact hplaced
  | bare c =>
    have hfits := h.value
    rw [hw] at hfits hstart
    -- in front of the value stands the equals sign or a blank
    obtain ⟨u, x, hux, hx, hone⟩ : ∃ u x, a.before ++ '=' :: a.behind = u ++ [x] ∧ ¬ IsQuote x ∧
        x.utf8Size = 1 := by
      obtain hb | ⟨b, x, hb⟩ := a.behind.eq_nil_or_concat
      · exact ⟨a.before, '=', by rw [hb], (by rintro (h | h) <;> cases h), rfl⟩
      · rw [List.concat_eq_append] at hb
        have hx := tagSpace_cases (h.behind x (by simp [hb]))
        exact ⟨a.before ++ '=' :: b, x, by simp [hb], hx⟩
    have hu : lo + Text.size u + 1 = a.start lo := by
      have := congrArg Text.size hux
      simp only [Text.size_append, Text.size_cons, Text.size_nil, hequals, hone] at this
      simp only [Assigned.start]
      omega
    have h' : source.At lo (u ++ (x :: (c ++ rest))) := by
      have h'' : source.At lo ((a.before ++ '=' :: a.behind) ++ (a.value.text ++ rest)) := by
        simpa [Assigned.text] using hat
      rw [hux, hw] at h''
      simpa [Written.text] using h''
    have hplaced := valuePlaced_bare hx hone (Nat.le_add_right lo (Text.size u)) hfits.1 h'.skip
    rw [hu] at hplaced
    exact hplaced

theorem attrPlaced {n : Text} (hn : n ≠ []) (ha : TagItem.AssignedFits a f)
    (hat : source.At start (n ++ (TagItem.assignedText a ++ rest))) :
    let r := TagItem.rawAttr n start a
    AttrPlaced source r.span r.nameSpan r.value := by
  have hpos := Text.size_pos hn
  have hname : source.At (start + n.size) (TagItem.assignedText a ++ rest) := hat.skip
  have hstop := hname.skip.isBoundary
  refine ⟨rfl, ?_, ?_, hat.isBoundary, hname.isBoundary, hstop, ?_, ?_⟩
  · simp only [TagItem.rawAttr]
    omega
  · simp only [TagItem.rawAttr]
    omega
  · intro v hv
    cases a with
    | none => cases hv
    | some a =>
      obtain rfl : a.value.value (a.start (start + n.size)) = v := by simpa [TagItem.rawAttr] using hv
      exact valuePlaced ha hname
  · intro hv
    cases a with
    | none => simp [TagItem.rawAttr, TagItem.assignedText]
    | some a => cases hv

theorem argPlaced {tail : Text} {a : DirectiveArg} (hat : source.At offset (tail ++ rest))
    (h : (Directive.scanArg offset tail).1 = some a) :
    ArgPlaced source offset (offset + tail.size) a := by
  have harg : ∀ (n : Nat) (c t : Text) (dynamic : Bool), source.At n (c ++ t) →
      (if c.isEmpty then none
        else some (DirectiveArg.mk (String.ofList c) ⟨n, n + Text.size c⟩ dynamic)) = some a →
        ArgPlaced source n (n + Text.size c) a := by
    intro n c t dynamic hat h
    split at h
    · cases h
    next hne =>
      obtain rfl := Option.some.inj h
      have hpos := Text.size_pos (show c ≠ [] by simpa using hne)
      exact ⟨Nat.le_refl _, by simp only; omega, Nat.le_refl _, hat.isBoundary, hat.skip.isBoundary⟩
  have hle : ∀ (p : Char → Bool) (t : Text), Text.size (t.takeWhile p) ≤ t.size := by
    intro p t
    have := congrArg Text.size (List.takeWhile_append_dropWhile (p := p) (l := t))
    rw [Text.size_append] at this
    omega
  unfold Directive.scanArg at h
  split at h
  next inner =>
    have hone : ('[' : Char).utf8Size = 1 := rfl
    have hinner : source.At (offset + 1) (inner ++ rest) := by
      have h' : source.At offset (['['] ++ (inner ++ rest)) := hat
      simpa [hone] using h'.skip
    have hsplit : inner ++ rest = inner.takeWhile (· != ']') ++ (inner.dropWhile (· != ']') ++ rest) := by
      rw [← List.append_assoc, List.takeWhile_append_dropWhile]
    rw [hsplit] at hinner
    obtain ⟨h1, h2, h3, h4, h5⟩ := harg _ _ _ _ hinner h
    have := hle (· != ']') inner
    refine ⟨by omega, h2, ?_, h4, h5⟩
    simp only [Text.size_cons, hone]
    omega
  next =>
    have hsplit : tail ++ rest = tail.takeWhile (· != '.') ++ (tail.dropWhile (· != '.') ++ rest) := by
      rw [← List.append_assoc, List.takeWhile_append_dropWhile]
    rw [hsplit] at hat
    obtain ⟨h1, h2, h3, h4, h5⟩ := harg _ _ _ _ hat h
    have := hle (· != '.') tail
    exact ⟨h1, h2, by omega, h4, h5⟩

theorem argPlaced_tail {a : DirectiveArg} (hat : source.At offset (head.tail ++ rest))
    (h : (Directive.scanTail offset head).1 = some a) :
    ArgPlaced source offset (offset + head.tail.size) a := by
  unfold Directive.scanTail at h
  split at h
  next => exact argPlaced hat h
  next tail _ heq =>
    have hcolon : (':' : Char).utf8Size = 1 := rfl
    rw [heq] at hat ⊢
    have htail : source.At (offset + 1) (tail ++ rest) := by
      have h' : source.At offset ([':'] ++ (tail ++ rest)) := hat
      simpa [hcolon] using h'.skip
    obtain ⟨h1, h2, h3, h4, h5⟩ := argPlaced htail h
    simp only [Text.size_cons, hcolon]
    exact ⟨by omega, h2, by omega, h4, h5⟩
  next => cases h

theorem exists_of_head? {raw : Text} (h : Directive.head? raw = some head) :
    ∃ pre, raw = pre ++ head.tail ∧ pre ≠ [] := by
  unfold Directive.head? at h
  split at h
  · obtain rfl := Option.some.inj h
    exact ⟨[':'], rfl, by simp⟩
  · obtain rfl := Option.some.inj h
    exact ⟨['@'], rfl, by simp⟩
  · obtain rfl := Option.some.inj h
    exact ⟨['#'], rfl, by simp⟩
  · obtain rfl := Option.some.inj h
    exact ⟨['.'], rfl, by simp⟩
  next c rest =>
    split at h
    · obtain rfl := Option.some.inj h
      refine ⟨'v' :: '-' :: (c :: rest).takeWhile (fun c => c != ':' && c != '.'), ?_, by simp⟩
      have hdrop := List.takeWhile_append_dropWhile (p := fun c => c != ':' && c != '.')
        (l := c :: rest)
      have hsame : (c :: rest).drop ((c :: rest).takeWhile fun c => c != ':' && c != '.').length =
          (c :: rest).dropWhile fun c => c != ':' && c != '.' := by
        calc (c :: rest).drop _ = (_ ++ (c :: rest).dropWhile fun c => c != ':' && c != '.').drop _ :=
              congrArg _ hdrop.symm
          _ = _ := List.drop_left
      simp [hsame]
    · cases h
  · cases h

theorem placed_ofRaw {n : Text} (hn : n ≠ []) (ha : TagItem.AssignedFits a f)
    (hat : source.At start (n ++ (TagItem.assignedText a ++ rest))) :
    Placed source (.ofRaw (TagItem.rawAttr n start a)) := by
  have hattr := attrPlaced hn ha hat
  have hraw : (TagItem.rawAttr n start a).name.toList = n := by simp [TagItem.rawAttr]
  have hstop : (TagItem.rawAttr n start a).nameSpan.stop = start + n.size := rfl
  cases hh : Directive.head? n with
  | none =>
    simp only [Attr.ofRaw, hraw, hh]
    exact hattr
  | some head =>
    obtain ⟨pre, hpre, hne⟩ := exists_of_head? hh
    have hpos := Text.size_pos hne
    have hsize : n.size = pre.size + head.tail.size := by rw [hpre, Text.size_append]
    have hoffset : start + n.size - head.tail.size = start + pre.size := by omega
    have htail : source.At (start + pre.size) (head.tail ++ (TagItem.assignedText a ++ rest)) := by
      have h' : source.At start (pre ++ (head.tail ++ (TagItem.assignedText a ++ rest))) := by
        rw [hpre] at hat
        simpa using hat
      exact h'.skip
    simp only [Attr.ofRaw, hraw, hh, hstop, hoffset]
    refine ⟨hattr, ?_⟩
    intro arg harg
    have hspan : (TagItem.rawAttr n start a).span.start = start := rfl
    rw [hspan]
    obtain ⟨h1, h2, h3, h4, h5⟩ := argPlaced_tail htail harg
    exact ⟨by omega, h2, by simp only [hstop]; omega, h4, h5⟩

theorem span_ofRaw (r : RawAttr) : (Attr.ofRaw r).span = r.span := by
  simp only [Attr.ofRaw]
  split <;> rfl

theorem placed_rawAttrs {items : List TagItem} (h : TagItem.AllFit items f)
    (hat : source.At offset (TagItem.allText items ++ rest)) :
    (∀ r ∈ TagItem.rawAttrs offset items, Placed source (.ofRaw r) ∧ offset ≤ r.span.start ∧
      r.span.stop ≤ offset + (TagItem.allText items).size) ∧
      (TagItem.rawAttrs offset items).Pairwise fun r s => r.span.stop ≤ s.span.start := by
  refine ⟨fun r hr => ⟨?_, TagItem.rawAttrs_between h hr⟩, TagItem.pairwise_rawAttrs h offset⟩
  obtain ⟨front, n, a, back, heq, hn, ha, rfl⟩ := TagItem.exists_of_mem_rawAttrs h hr
  simp only [heq, List.append_assoc] at hat
  exact placed_ofRaw hn ha hat.skip

theorem exists_attrs (seen : List Attr) (raws : List RawAttr) :
    ∃ kept, (Template.attrs seen raws).1 = seen ++ kept ∧ kept.Sublist (raws.map .ofRaw) := by
  induction raws generalizing seen with
  | nil => exact ⟨[], by simp [Template.attrs], .slnil⟩
  | cons r raws ih =>
    unfold Template.attrs
    split
    · obtain ⟨kept, hkept, hsub⟩ := ih seen
      exact ⟨kept, hkept, hsub.cons _⟩
    · obtain ⟨kept, hkept, hsub⟩ := ih (seen ++ [.ofRaw r])
      exact ⟨.ofRaw r :: kept, by simpa using hkept, hsub.cons_cons _⟩

end

/-- The parts of an element in their place. -/
structure TagPlaced (source : Text) (t : Tag) : Prop where
  start_eq : t.startTag.start = t.span.start
  name_start : t.nameSpan.start = t.span.start + 1
  name_stop : t.nameSpan.stop = t.nameSpan.start + Text.size t.name.toList
  name_text : ∃ c n rest, t.name.toList = c :: n ∧ c.isAlpha = true ∧
    source.At t.nameSpan.start (t.name.toList ++ rest)
  name_lt : t.nameSpan.stop < t.startTag.stop
  bracket : ∃ rest, source.At (t.startTag.stop - 1) ('>' :: rest)
  placed : ∀ a ∈ t.attrs, Placed source a ∧ t.nameSpan.stop ≤ a.span.start ∧
    a.span.stop < t.startTag.stop
  order : t.attrs.Pairwise fun a b => a.span.stop ≤ b.span.start
  start_at : source.isBoundary t.span.start = true
  stop_at : source.isBoundary t.span.stop = true
  stop_le : t.startTag.stop ≤ t.span.stop
  close : ∀ c ∈ t.closeTag, t.startTag.stop ≤ c.start ∧ c.stop = t.span.stop ∧
    ∃ blank rest, c.stop = c.start + (closingText t.name.toList blank).size ∧
      source.At c.start (closingText t.name.toList blank ++ rest)

theorem tagPlaced {rest : Text} {s : TagShape} (h : s.Fits f) (children : Text)
    (close : Option Text)
    (hat : source.At offset (s.text ++ (children ++ (Shape.closeText s.name close ++ rest)))) :
    TagPlaced source (Shape.tagAt offset s children close) := by
  have hopen : ('<' : Char).utf8Size = 1 := rfl
  obtain ⟨c, n, hn, hc⟩ := TagShape.head?_name h
  have hchildren := hat.skip
  have hclose := hchildren.skip
  have hname : source.At (offset + 1) (s.name ++ (s.tail ++
      (children ++ (Shape.closeText s.name close ++ rest)))) := by
    have h' : source.At offset (['<'] ++ (s.name ++ (s.tail ++
        (children ++ (Shape.closeText s.name close ++ rest))))) := by
      simpa [TagShape.text] using hat
    simpa [hopen] using h'.skip
  obtain ⟨u, hu⟩ := StartTag.exists_closing s.blank s.selfClosing
  have hbracketSize : ('>' : Char).utf8Size = 1 := rfl
  have hsize := s.size_text
  have hitems := TagShape.at_items hat
  simp only [hu, Text.size_append, Text.size_cons, Text.size_nil, hbracketSize, List.append_assoc,
    List.singleton_append] at hsize hitems
  obtain ⟨hplaced, horder⟩ := placed_rawAttrs h.items hitems
  obtain ⟨kept, hkept, hsub⟩ := exists_attrs [] (s.startTag offset).attrs
  have hattrs : (Shape.tagAt offset s children close).attrs = kept := by simpa [Shape.tagAt] using hkept
  refine ⟨rfl, rfl, by simp [Shape.tagAt, TagShape.startTag], ?_, ?_, ?_, ?_, ?_, hat.isBoundary, ?_, ?_, ?_⟩
  · exact ⟨c, n, _, by simpa [Shape.tagAt] using hn, hc, by simpa [Shape.tagAt, TagShape.startTag] using hname⟩
  · simp only [Shape.tagAt, TagShape.startTag]
    omega
  · refine ⟨children ++ (Shape.closeText s.name close ++ rest), ?_⟩
    have hb := hitems.skip.skip
    have hpos : (Shape.tagAt offset s children close).startTag.stop - 1 =
        offset + 1 + s.name.size + (TagItem.allText s.items).size + Text.size u := by
      simp only [Shape.tagAt, TagShape.startTag]
      omega
    rw [hpos]
    exact hb
  · intro a ha
    rw [hattrs] at ha
    obtain ⟨r, hr, rfl⟩ := List.mem_map.mp (hsub.subset ha)
    obtain ⟨hp, hlo, hhi⟩ := hplaced r hr
    rw [span_ofRaw]
    refine ⟨hp, hlo, ?_⟩
    simp only [Shape.tagAt, TagShape.startTag]
    omega
  · rw [hattrs]
    refine List.Pairwise.sublist hsub (List.pairwise_map.mpr (horder.imp ?_))
    intro r s' hle
    rwa [span_ofRaw, span_ofRaw]
  · have hstop := hclose.skip.isBoundary
    simpa [Shape.tagAt, TagShape.startTag, Nat.add_assoc] using hstop
  · simp only [Shape.tagAt, TagShape.startTag]
    omega
  · intro span hspan
    cases close with
    | none => cases hspan
    | some blank =>
      obtain rfl := Option.some.inj hspan
      refine ⟨?_, ?_, blank, rest, ?_, ?_⟩
      · simp only [Shape.tagAt]
        omega
      · simp [Shape.tagAt, Shape.closeText]
      · simp [Shape.tagAt]
      · simpa [Shape.tagAt, TagShape.startTag, Shape.closeText] using hclose

theorem le_spaceStart {u rest : Text} (hu : source = u ++ (c :: rest))
    (hc : Text.isSpace c = false) (hn : source.isBoundary n = true)
    (hle : Text.size u + c.utf8Size ≤ n) :
    Text.size u + c.utf8Size ≤ spaceStart source n ∧ spaceStart source n ≤ n ∧
      source.isBoundary (spaceStart source n) = true := by
  have hat : source.At (Text.size u + c.utf8Size) rest := by
    have h' : source.At (Text.size u) ([c] ++ rest) := ⟨u, hu, rfl⟩
    simpa using h'.skip
  obtain ⟨v, hv⟩ := Text.At.of_isBoundary hn
  obtain ⟨s, rfl, rfl⟩ := hat.between hv hle
  have hsource : source = (u ++ c :: s) ++ v := by simp [hu]
  have hsize : Text.size u + c.utf8Size + Text.size s = Text.size (u ++ c :: s) := by
    simp [Nat.add_assoc]
  have hslice : source.slice 0 (Text.size u + c.utf8Size + Text.size s) = u ++ c :: s := by
    rw [hsize, hsource]
    exact Text.slice_head _ _
  obtain ⟨blank, front, hrev, hblank, hfront⟩ := Text.exists_run Text.isSpace (u ++ c :: s).reverse
  have hback : u ++ c :: s = front.reverse ++ blank.reverse := by
    rw [← List.reverse_append, ← hrev, List.reverse_reverse]
  have hstart : spaceStart source (Text.size u + c.utf8Size + Text.size s) =
      Text.size front.reverse := by
    have hrun := Text.takeWhile_run hblank hfront
    have hlen := congrArg Text.size hback
    rw [spaceStart, hslice, hrev, hrun, hsize, hlen, Text.size_append, Text.size_reverse blank]
    omega
  rw [hstart]
  refine ⟨?_, ?_, Text.isBoundary_iff.mpr ⟨front.reverse, blank.reverse ++ v, ?_, rfl⟩⟩
  · -- the last character of the run would be the one that is no space
    obtain ⟨m, hm, hrest⟩ | ⟨m, hm, hrest⟩ := List.append_eq_append_iff.mp hback
    · cases m with
      | nil =>
        have hmem : c ∈ blank := by
          rw [← List.mem_reverse, ← List.nil_append blank.reverse, ← hrest]
          simp
        rw [hblank c hmem] at hc
        cases hc
      | cons d m =>
        obtain ⟨rfl, -⟩ := List.cons.inj hrest
        rw [hm]
        simp only [Text.size_append, Text.size_cons]
        omega
    · have hmem : c ∈ blank := by
        rw [← List.mem_reverse, hrest]
        simp
      rw [hblank c hmem] at hc
      cases hc
  · have hlen := congrArg Text.size hback
    rw [Text.size_append (front.reverse)] at hlen
    omega
  · rw [hsource, hback, List.append_assoc]

theorem isSpace_of_isAlpha (h : c.isAlpha = true) : Text.isSpace c = false := by
  have hrange := Text.toNat_of_isAlpha h
  simp only [Text.isSpace, Bool.or_eq_false_iff, Bool.and_eq_false_iff, decide_eq_false_iff_not,
    beq_eq_false_iff_ne]
  omega

theorem TagPlaced.le_spaceStart (h : TagPlaced source t)
    (hn : source.isBoundary n = true) (hle : t.nameSpan.stop ≤ n) :
    t.nameSpan.start + 1 ≤ spaceStart source n ∧ spaceStart source n ≤ n ∧
      source.isBoundary (spaceStart source n) = true := by
  obtain ⟨c, m, rest, hname, hc, u, hu, hsize⟩ := h.name_text
  have hstop := h.name_stop
  have hpos := c.utf8Size_pos
  rw [hname] at hu hstop
  simp only [Text.size_cons] at hstop
  have hspace := View.le_spaceStart hu (isSpace_of_isAlpha hc) hn (by omega)
  exact ⟨by omega, hspace.2⟩

def Tidy (source : Text) (d : Directive) : Prop :=
  ∀ c ∈ (d.span.text source).getLast?, Text.isSpace c = false

theorem DirectivePlaced.le_spaceStart (h : DirectivePlaced source d)
    (htidy : Tidy source d) (hn : source.isBoundary n = true) (hle : d.span.stop ≤ n) :
    d.span.stop ≤ spaceStart source n := by
  obtain ⟨t, ht⟩ := Text.At.of_isBoundary h.attr.start_at
  obtain ⟨rest, hrest⟩ := Text.At.of_isBoundary h.attr.stop_at
  have hlt : d.span.start < d.span.stop := by
    have := h.attr.name_pos
    have := h.attr.name_le
    omega
  obtain ⟨s, rfl, hstop⟩ := ht.between hrest (Nat.le_of_lt hlt)
  have hslice : d.span.text source = s := by
    rw [Span.text, hstop]
    exact ht.slice
  obtain rfl | ⟨w, c, rfl⟩ := s.eq_nil_or_concat
  · simp only [Text.size_nil] at hstop
    omega
  · rw [List.concat_eq_append] at *
    have hc : Text.isSpace c = false := htidy c (by simp [hslice])
    obtain ⟨u, hu, hsize⟩ := ht
    have hsource : source = (u ++ w) ++ c :: rest := by simpa using hu
    have hend : Text.size (u ++ w) + c.utf8Size = d.span.stop := by
      simp only [Text.size_append, Text.size_cons, Text.size_nil] at hstop ⊢
      omega
    rw [← hend]
    exact (View.le_spaceStart hsource hc hn (by omega)).1

theorem mem_attrs_of_directive (hd : d ∈ t.directives) : Attr.directive d ∈ t.attrs := by
  obtain ⟨a, ha, had⟩ := List.mem_filterMap.mp hd
  cases a with
  | plain a => cases had
  | directive d' =>
    obtain rfl := Option.some.inj had
    exact ha

theorem TagPlaced.directive (h : TagPlaced source t) (hd : d ∈ t.directives) :
    DirectivePlaced source d ∧ t.nameSpan.stop ≤ d.span.start ∧
      d.span.stop < t.startTag.stop :=
  h.placed _ (mem_attrs_of_directive hd)

theorem TagPlaced.apart (h : TagPlaced source t) {a b : Attr} (ha : a ∈ t.attrs)
    (hb : b ∈ t.attrs) (hne : a ≠ b) : a.span.stop ≤ b.span.start ∨ b.span.stop ≤ a.span.start := by
  obtain ⟨l, r, hl⟩ := List.append_of_mem ha
  have horder := h.order
  rw [hl] at hb horder
  rw [List.pairwise_append] at horder
  rcases List.mem_append.mp hb with hb | hb
  · exact .inr (horder.2.2 b hb a (by simp))
  · rcases List.mem_cons.mp hb with rfl | hb
    · exact absurd rfl hne
    · exact .inl (List.rel_of_pairwise_cons horder.2.1 hb)

end SfcTsx.View
