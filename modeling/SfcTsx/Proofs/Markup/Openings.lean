import SfcTsx.Proofs.Markup.EmptyBlocks
import SfcTsx.Proofs.Markup.Sweeps

namespace SfcTsx

variable {k n : Nat} {f name : Text} {comments comments' : List Span}

def Span.mapOffsets (φ : Nat → Nat) (s : Span) : Span := ⟨φ s.start, φ s.stop⟩

namespace Markup

open Text (At)

variable {gap : Span} {b : RawBlock} {tag : StartTag}

def Value.mapOffsets (φ : Nat → Nat) (v : Value) : Value := { v with span := v.span.mapOffsets φ }

def RawAttr.mapOffsets (φ : Nat → Nat) (r : RawAttr) : RawAttr :=
  { r with
    nameSpan := r.nameSpan.mapOffsets φ, value := r.value.map (·.mapOffsets φ)
    span := r.span.mapOffsets φ }

def StartTag.mapOffsets (φ : Nat → Nat) (tag : StartTag) : StartTag :=
  { tag with
    nameSpan := tag.nameSpan.mapOffsets φ, attrs := tag.attrs.map (·.mapOffsets φ)
    span := tag.span.mapOffsets φ }

def RawBlock.mapOffsets (φ : Nat → Nat) (b : RawBlock) : RawBlock :=
  { b with content := b.content.mapOffsets φ, close := b.close.mapOffsets φ }

/-- A block with all its spans elsewhere, those of its attributes too. -/
def Block.mapOffsets (φ : Nat → Nat) (b : Block) : Block :=
  { b with
    attributes := b.attributes.map (Prod.map id (Option.map (Value.mapOffsets φ)))
    openTag := b.openTag.mapOffsets φ
    closeTag := b.closeTag.mapOffsets φ
    content := b.content.mapOffsets φ }

section offsets
variable {φ : Nat → Nat}

theorem RawAttr.mapOffsets_shift (hφ : ∀ o, φ (o + k) = o + n) (r : RawAttr) :
    (r.shift k).mapOffsets φ = r.shift n := by
  simp [mapOffsets, shift, Span.mapOffsets, Span.shift, Value.shift, Value.mapOffsets, hφ,
    Function.comp_def]

theorem StartTag.mapOffsets_shift (hφ : ∀ o, φ (o + k) = o + n) (tag : StartTag) :
    (tag.shift k).mapOffsets φ = tag.shift n := by
  simp [mapOffsets, shift, Span.mapOffsets, Span.shift, hφ, RawAttr.mapOffsets_shift hφ,
    Function.comp_def]

theorem RawBlock.mapOffsets_shift (hφ : ∀ o, φ (o + k) = o + n) (b : RawBlock) :
    (b.shift k).mapOffsets φ = b.shift n := by
  simp [mapOffsets, shift, Span.mapOffsets, Span.shift, hφ]

theorem Written.lead_add_le (w : Written) : w.lead + w.content.size ≤ w.text.size := by
  cases w with
  | quoted q c =>
    have hq := q.utf8Size_pos
    simp only [lead, content, text, Text.size_cons, Text.size_append]
    omega
  | bare c => simp [lead, content, text]

theorem TagItem.mapOffsets_rawAttr (n : Text) (start : Nat) (a : Option Assigned)
    (hφ : ∀ o ≤ start + n.size + (assignedText a).size, φ o = o) :
    (rawAttr n start a).mapOffsets φ = rawAttr n start a := by
  have hspan : ∀ s : Span, s.start ≤ s.stop → s.stop ≤ start + n.size + (assignedText a).size →
      s.mapOffsets φ = s := by
    intro s hle hstop
    rw [Span.mapOffsets, hφ _ (hle.trans hstop), hφ _ hstop]
  have hvalue : (rawAttr n start a).value.map (·.mapOffsets φ) = (rawAttr n start a).value := by
    cases a with
    | none => rfl
    | some a =>
      have hsize := a.size_text (start + n.size)
      have hlead := a.value.lead_add_le
      have hv := hspan (a.value.value (a.start (start + n.size))).span (by simp [Written.value]) (by
        show a.start (start + n.size) + a.value.lead + a.value.content.size ≤
          start + n.size + a.text.size
        omega)
      simp [rawAttr, Value.mapOffsets, hv]
  simp only [RawAttr.mapOffsets, hvalue]
  simp only [rawAttr]
  rw [hspan _ (by simp) (by simp), hspan _ (by simp only; omega) le_rfl]

theorem TagItem.mapOffsets_rawAttrs (offset : Nat) (items : List TagItem)
    (hφ : ∀ o ≤ offset + (allText items).size, φ o = o) :
    (rawAttrs offset items).map (·.mapOffsets φ) = rawAttrs offset items := by
  induction items generalizing offset with
  | nil => rfl
  | cons i items ih =>
    rw [allText_cons, Text.size_append] at hφ
    have hrest := ih (offset + i.text.size) fun o ho => hφ o (by omega)
    rw [rawAttrs, List.map_append, hrest]
    congr 1
    cases i with
    | slash b => rfl
    | attr b n a =>
      simp only [text, Text.size_append] at hφ
      have hattr := mapOffsets_rawAttr n (offset + b.size) a fun o ho =>
        hφ o (by omega)
      simp [rawAttr?, hattr]

theorem TagShape.mapOffsets_startTag {s : TagShape} {offset : Nat}
    (hφ : ∀ o ≤ offset + s.text.size, φ o = o) :
    (s.startTag offset).mapOffsets φ = s.startTag offset := by
  have hsize := s.size_text
  have hattrs := TagItem.mapOffsets_rawAttrs (offset + 1 + s.name.size) s.items fun o ho =>
    hφ o (by omega)
  simp only [startTag, StartTag.mapOffsets, hattrs, Span.mapOffsets]
  rw [hφ _ (by omega), hφ _ (by omega), hφ _ (by omega), hφ _ le_rfl]

theorem lookup_map_snd {β γ : Type} (ψ : β → γ) (seen : List (String × β)) (name : String) :
    (seen.map (Prod.map id ψ)).lookup name = (seen.lookup name).map ψ := by
  induction seen with
  | nil => rfl
  | cons a seen ih =>
    obtain ⟨key, value⟩ := a
    cases hname : name == key with
    | true => simp [List.lookup_cons, hname]
    | false => simpa [List.lookup_cons, hname] using ih

theorem attributes_mapOffsets (φ : Nat → Nat) (seen : List (String × Option Value))
    (attrs : List RawAttr) :
    let moved := Prod.map (id : String → String) (Option.map (Value.mapOffsets φ))
    (attributes (seen.map moved) (attrs.map (·.mapOffsets φ))).1 =
      (attributes seen attrs).1.map moved := by
  intro moved
  induction attrs generalizing seen with
  | nil => rfl
  | cons a attrs ih =>
    have hname : (a.mapOffsets φ).name = a.name := rfl
    rw [List.map_cons, attributes, attributes, hname, lookup_map_snd, Option.isSome_map]
    split
    · exact ih seen
    · have happ : seen.map moved ++ [(a.name, (a.mapOffsets φ).value)] =
          (seen ++ [(a.name, a.value)]).map moved := by
        rw [List.map_append]
        rfl
      rw [happ]
      exact ih _

theorem resolve_mapOffsets {source source' : Text} {gap' : Span}
    (h : openTag? source' gap' (b.mapOffsets φ) comments' =
      (openTag? source gap b comments).map (·.mapOffsets φ)) :
    (resolve source' gap' comments' (b.mapOffsets φ)).1 =
      (resolve source gap comments b).1.mapOffsets φ := by
  unfold resolve
  rw [h]
  cases openTag? source gap b comments with
  | none => rfl
  | some tag =>
    have hattrs : (attributes [] (tag.attrs.map (·.mapOffsets φ))).1 = _ :=
      attributes_mapOffsets φ [] tag.attrs
    simp only [Option.map_some, StartTag.mapOffsets, hattrs]
    rfl

end offsets

section lookup
variable {needle t : Text} {comments comments' : List Span} {accept accept' : Nat → Text → Option StartTag}
  {limit offset : Nat}

theorem lastTag?_beyond (hneedle : needle ≠ []) (hle : limit ≤ offset) :
    lastTag? needle comments limit accept offset t = none := by
  induction t generalizing offset with
  | nil => rfl
  | cons c t ih =>
    have hpos := Text.size_pos hneedle
    have hstop : ¬ offset + needle.size ≤ limit := by omega
    rw [lastTag?, ih (by omega)]
    simp [hstop]

theorem lastTag?_congr (hneedle : needle ≠ []) (hcomments : ∀ s : Span, s.stop ≤ limit →
      comments'.any (·.overlaps s) = comments.any (·.overlaps s)) {g : Text}
    (haccept : ∀ u v : Text, t = u ++ v → needle <+: v →
      accept' (offset + u.size) (v ++ g) = accept (offset + u.size) (v ++ f))
    (hle : limit ≤ offset + t.size) :
    lastTag? needle comments' limit accept' offset (t ++ g) =
      lastTag? needle comments limit accept offset (t ++ f) := by
  induction t generalizing offset with
  | nil =>
    have hle' : limit ≤ offset := hle
    rw [List.nil_append, List.nil_append, lastTag?_beyond hneedle hle', lastTag?_beyond hneedle hle']
  | cons c t ih =>
    have hlater : ∀ u v : Text, t = u ++ v → needle <+: v →
        accept' (offset + c.utf8Size + u.size) (v ++ g) =
          accept (offset + c.utf8Size + u.size) (v ++ f) := by
      intro u v ht hv
      have := haccept (c :: u) v (by rw [ht, List.cons_append]) hv
      rwa [Text.size_cons, ← Nat.add_assoc] at this
    have hrest := ih hlater (by rwa [Nat.add_assoc, ← Text.size_cons])
    rw [List.cons_append, List.cons_append, lastTag?, lastTag?, hrest]
    cases lastTag? needle comments limit accept (offset + c.utf8Size) (t ++ f) with
    | some tag => rfl
    | none =>
      by_cases hstop : offset + needle.size ≤ limit
      · -- The needle ends in front of the place, so it stands there in both texts or in neither.
        have hbegins : ∀ h : Text, needle.isPrefixOf (c :: (t ++ h)) = needle.isPrefixOf (c :: t) := by
          intro h
          rw [Bool.eq_iff_iff, List.isPrefixOf_iff_prefix, List.isPrefixOf_iff_prefix]
          refine ⟨?_, fun hp => hp.trans (List.prefix_append (c :: t) h)⟩
          rintro ⟨w, hw⟩
          obtain ⟨d, hd, -⟩ := exists_append_of_size_le (a := c :: t) hw.symm (by omega)
          exact ⟨d, hd.symm⟩
        have hspan := hcomments ⟨offset, offset + needle.size⟩ hstop
        simp only [hbegins, hspan]
        split
        next hcond =>
          simp only [Bool.and_eq_true] at hcond
          exact haccept [] (c :: t) rfl (List.isPrefixOf_iff_prefix.mp hcond.1.1)
        next => rfl
      · simp [hstop]

theorem lastTag?_shift
    (hcomments : ∀ s : Span, comments'.any (·.overlaps (s.shift k)) = comments.any (·.overlaps s))
    (haccept : ∀ o u, accept' (o + k) (needle ++ u) = (accept o (needle ++ u)).map (·.shift k)) :
    lastTag? needle comments' (limit + k) accept' (offset + k) t =
      (lastTag? needle comments limit accept offset t).map (·.shift k) := by
  induction t generalizing offset with
  | nil => rfl
  | cons c t ih =>
    rw [lastTag?, lastTag?, Nat.add_right_comm, ih]
    cases lastTag? needle comments limit accept (offset + c.utf8Size) t with
    | some tag => rfl
    | none =>
      have hspan : comments'.any (·.overlaps ⟨offset + k, offset + k + needle.size⟩) =
          comments.any (·.overlaps ⟨offset, offset + needle.size⟩) := by
        have hshift := hcomments ⟨offset, offset + needle.size⟩
        rwa [Span.shift, Nat.add_right_comm] at hshift
      have hstop : offset + k + needle.size ≤ limit + k ↔ offset + needle.size ≤ limit := by omega
      simp only [Option.map_none, hspan, hstop]
      split
      next hcond =>
        simp only [Bool.and_eq_true] at hcond
        obtain ⟨u, hu⟩ := List.isPrefixOf_iff_prefix.mp hcond.1.1
        rw [← hu]
        exact haccept offset u
      next => rfl

theorem lastTag?_ne_none {source text : Text} {o : Nat} (hneedle : needle ≠ [])
    (h : At source offset text) (ho : At source o (needle ++ t)) (hle : offset ≤ o)
    (hstop : o + needle.size ≤ limit)
    (hclear : comments.any (·.overlaps ⟨o, o + needle.size⟩) = false)
    (hacc : accept o (needle ++ t) ≠ none) :
    lastTag? needle comments limit accept offset text ≠ none := by
  induction text generalizing offset with
  | nil =>
    obtain ⟨s, hs, -⟩ := h.between ho hle
    simp [hneedle] at hs
  | cons c cs ih =>
    obtain ⟨s, hs, rfl⟩ := h.between ho hle
    rw [lastTag?]
    cases s with
    | nil =>
      have hprefix : needle.isPrefixOf (needle ++ t) = true :=
        List.isPrefixOf_iff_prefix.mpr (List.prefix_append needle t)
      rw [Text.size_nil, Nat.add_zero] at hstop hclear hacc
      rw [List.nil_append] at hs
      split
      · simp
      · simpa only [hs, hprefix, hclear, hstop, decide_true, Bool.not_false, Bool.and_self, if_true]
          using hacc
    | cons d s =>
      obtain ⟨rfl, -⟩ := List.cons.inj hs
      have hlast := ih (h.skip (s := [c])) (by simp only [Text.size_cons, Text.size_nil]; omega)
      split
      · simp
      next hnone => exact absurd hnone hlast

end lookup

namespace TagShape

variable {s : TagShape} {f : Text}

theorem tail_head (h : s.Fits f) :
    ∃ c u, s.tail = c :: u ∧ (Text.isTagSpace c || c == '>' || c == '/') = true := by
  obtain ⟨name, items, blank, selfClosing⟩ := s
  cases items with
  | nil =>
    cases blank with
    | nil => cases selfClosing <;> exact ⟨_, _, rfl, rfl⟩
    | cons c b => exact ⟨c, _, rfl, by simp [h.blank c (by simp)]⟩
  | cons i is =>
    obtain ⟨hi, -⟩ := h.items
    cases i with
    | slash b =>
      cases b with
      | nil => exact ⟨_, _, rfl, rfl⟩
      | cons c b => exact ⟨c, _, rfl, by simp [hi.1 c (by simp)]⟩
    | attr b n a =>
      cases b with
      | nil =>
        -- The name of the tag would go on.
        obtain ⟨c, n, rfl⟩ := List.exists_cons_of_ne_nil hi.2.1.ne_nil
        exact absurd (hi.2.1.chars c (by simp)) (by simp [h.name.ends c rfl])
      | cons c b => exact ⟨c, _, rfl, by simp [hi.1 c (by simp)]⟩

theorem hasName_iff (h : s.Fits f) (hname : ∀ c ∈ name, Token.isNameChar c = true) :
    StartTag.hasName name (s.name ++ (s.tail ++ f)) = true ↔ name = s.name := by
  constructor
  · intro hhas
    have hrun : ∀ r, Text.after? name (s.name ++ (s.tail ++ f)) = some r →
        (∀ c ∈ r.head?, Token.isNameChar c = false) → name = s.name := by
      intro r hafter hr
      have heq := congrArg (List.takeWhile Token.isNameChar) (Text.after?_eq_some hafter)
      rwa [Text.takeWhile_run h.name.chars h.name.ends, Text.takeWhile_run hname hr, eq_comm] at heq
    unfold StartTag.hasName at hhas
    split at hhas
    next hafter => exact hrun [] hafter (by simp)
    next c r hafter =>
      refine hrun (c :: r) hafter fun d hd => ?_
      obtain rfl := Option.some.inj hd
      simp only [Bool.or_eq_true, beq_iff_eq] at hhas
      rcases hhas with (hc | rfl) | rfl
      · simp [Token.isNameChar, hc]
      · rfl
      · rfl
    next => cases hhas
  · rintro rfl
    obtain ⟨c, u, htail, hc⟩ := tail_head h
    rw [StartTag.hasName, Text.after?_append, htail]
    exact hc

end TagShape

theorem tagEnding?_eq {s : TagShape} (h : s.Fits f) (offset : Nat)
    (hname : StartTag.hasName name (s.name ++ (s.tail ++ f)) = true) :
    tagEnding? name (offset + s.text.size) offset (s.text ++ f) = some (s.startTag offset) := by
  have hdrop : (s.text ++ f).drop 1 = s.name ++ (s.tail ++ f) := by simp [TagShape.text]
  have hscan : (StartTag.scan offset (s.text ++ f)).toOption = some (s.startTag offset) := by
    rw [TagShape.scan_eq h]
    rfl
  rw [tagEnding?, hdrop, if_pos hname, hscan]
  simp [TagShape.startTag]

theorem TagShape.exists_tail (s : TagShape) : ∃ v, s.tail = v ++ ['>'] := by
  obtain ⟨t, ht⟩ := StartTag.exists_closing s.blank s.selfClosing
  exact ⟨TagItem.allText s.items ++ t, by rw [tail, ht, List.append_assoc]⟩

theorem tagEnding?_of_append {v : Text} {stop offset : Nat} (hname : '>' ∉ name)
    (hle : stop ≤ offset + (Text.size ('<' :: v)))
    (h : tagEnding? name stop offset ('<' :: (v ++ f)) = some tag) (g : Text) :
    tagEnding? name stop offset ('<' :: (v ++ g)) = some tag := by
  obtain ⟨s, w, htext, hs, rfl, rfl, hhas⟩ := exists_of_tagEnding? h
  obtain ⟨d, hd, rfl⟩ := exists_append_of_size_le (a := '<' :: v) htext (by omega)
  obtain ⟨e, he⟩ := s.exists_tail
  have hrest : ∀ h : Text, v ++ h = s.name ++ (s.tail ++ (d ++ h)) := by
    intro h
    have hv : v = s.name ++ s.tail ++ d := (List.cons.inj hd).2
    rw [hv, List.append_assoc, List.append_assoc]
  have hcongr := hasName_append_cons (r := s.name ++ e) hname (d ++ f) (d ++ g)
  rw [hrest f, he] at hhas
  simp only [List.append_assoc, List.singleton_append] at hcongr hhas
  rw [← List.cons_append, hd, List.append_assoc]
  refine tagEnding?_eq (hs.congr _) offset ?_
  rw [he]
  simp only [List.append_assoc, List.singleton_append]
  exact hcongr.symm.trans hhas

theorem openTag?_congr {pre g : Text} {content close : Span}
    (hgap : pre.isBoundary gap.start = true) (hstop : gap.stop ≤ pre.size)
    (hle : b.content.start ≤ pre.size) (hstart : content.start = b.content.start)
    (hname : '>' ∉ b.tag.toList) (hcomments : ∀ s : Span, s.stop ≤ pre.size →
      comments'.any (·.overlaps s) = comments.any (·.overlaps s)) :
    openTag? (pre ++ g) gap ⟨b.tag, content, close⟩ comments' =
      openTag? (pre ++ f) gap b comments := by
  obtain ⟨u, v, rfl, hu⟩ := Text.isBoundary_iff.mp hgap
  have hskip : ∀ h : Text, skipTo 0 gap.start ((u ++ v) ++ h) = v ++ h := by
    intro h
    rw [List.append_assoc, ← hu]
    simp [skipTo, Text.drop?_size_append]
  rw [Text.size_append] at hstop hle hcomments
  simp only [openTag?_eq, hskip, hstart]
  refine lastTag?_congr (by simp) (fun s hs => hcomments s (hs.trans hstop)) ?_ (by omega)
  rintro x y rfl ⟨w, rfl⟩
  have hsize : b.content.start ≤ gap.start + x.size + Text.size ('<' :: (b.tag.toList ++ w)) := by
    simp only [Text.size_append, List.cons_append, Text.size_cons] at hle ⊢
    omega
  refine Option.ext fun tag => ⟨fun h => ?_, fun h => ?_⟩
  · exact tagEnding?_of_append hname hsize h f
  · exact tagEnding?_of_append hname hsize h g

theorem tagEnding?_shift (name : Text) (stop offset k : Nat) (r : Text) :
    tagEnding? name (stop + k) (offset + k) ('<' :: r) =
      (tagEnding? name stop offset ('<' :: r)).map (·.shift k) := by
  unfold tagEnding?
  split
  · rw [scan_shift]
    cases (StartTag.scan offset ('<' :: r)).toOption with
    | none => rfl
    | some tag =>
      simp only [Option.map_some, Option.filter_some, StartTag.shift, Span.shift,
        Nat.add_right_cancel_iff]
      split <;> rfl
  · rfl

theorem openTag?_shift {front t : Text} (hcomments : ∀ s : Span,
      comments'.any (·.overlaps (s.shift front.size)) = comments.any (·.overlaps s)) :
    openTag? (front ++ t) (gap.shift front.size) (b.shift front.size) comments' =
      (openTag? t gap b comments).map (·.shift front.size) := by
  have hskip : skipTo 0 (gap.start + front.size) (front ++ t) = skipTo 0 gap.start t := by
    rw [Nat.add_comm]
    simp [skipTo, Text.drop?_add]
  simp only [openTag?_eq, RawBlock.shift, Span.shift, hskip]
  exact lastTag?_shift hcomments fun o u => tagEnding?_shift _ _ _ _ _

def firstOfEach : List RawAttr → List (String × Option Value)
  | [] => []
  | a :: as => (a.name, a.value) :: (firstOfEach as).filter (·.1 != a.name)

theorem attributes_eq (seen : List (String × Option Value)) (as : List RawAttr) :
    (attributes seen as).1 =
      seen ++ (firstOfEach as).filter fun p => (seen.lookup p.1).isNone := by
  induction as generalizing seen with
  | nil => simp [attributes, firstOfEach]
  | cons a as ih =>
    rw [attributes, firstOfEach]
    split
    next hseen =>
      rw [ih, List.filter_cons_of_neg (by simpa using hseen), List.filter_filter]
      congr 2
      funext p
      by_cases hp : p.1 = a.name <;> simp_all
    next hseen =>
      rw [Option.not_isSome_iff_eq_none] at hseen
      rw [ih, List.filter_cons_of_pos (by rw [hseen]; rfl), List.filter_filter, List.append_assoc,
        List.singleton_append]
      congr 3
      funext p
      by_cases hp : p.1 = a.name <;> simp [List.lookup_append, List.lookup_cons, hp, beq_false_of_ne]

variable {source : Text} {keepEmpty : Bool}

theorem isNameChar_of_mem_tag (hb : b ∈ rawBlocks keepEmpty source) :
    ∀ c ∈ b.tag.toList, Token.isNameChar c = true := by
  rcases mem_rawBlocks.mp hb with hb | ⟨-, hb⟩
  · obtain ⟨-, s, f, -, hs, hname, -⟩ := exists_tag_of_mem hb
    rw [hname, String.toList_ofList]
    exact hs.name.chars
  · obtain ⟨span, s, o, f, hs, -, -, heq⟩ := emptyFound_of_mem hb
    obtain ⟨rfl, -⟩ := Prod.mk.inj heq
    intro c hc
    have hword : c ∈ s.name := by simpa [ElementShape.block] using hc
    by_contra hchar
    simp only [Token.isNameChar, Text.isTagSpace, Bool.not_eq_true, Bool.not_eq_false', Bool.or_eq_true,
      beq_iff_eq, or_assoc] at hchar
    rcases hchar with rfl | rfl | rfl | rfl | rfl | rfl | rfl | rfl | rfl | rfl | rfl <;>
      exact hs.name.not_mem (by decide) (by decide) hword

/-- A start tag of a name stands in the source and ends at an offset. -/
structure Opens (source : Text) (word : String) (limit : Nat) (tag : StartTag) : Prop where
  scan : ∃ rest, At source tag.span.start ('<' :: rest) ∧
    StartTag.scan tag.span.start ('<' :: rest) = .ok tag
  name : tag.name = word
  stop : tag.span.stop = limit

theorem opens_iff {word : String} {limit : Nat} : Opens source word limit tag ↔
    ∃ (s : TagShape) (o : Nat) (f : Text), tag = s.startTag o ∧ At source o (s.text ++ f) ∧ s.Fits f ∧
      word.toList = s.name ∧ o + s.text.size = limit := by
  constructor
  · rintro ⟨⟨rest, hat, hscan⟩, rfl, rfl⟩
    obtain ⟨s, f, htext, hs, heq⟩ := TagShape.exists_of_scan hscan
    refine ⟨s, tag.span.start, f, heq, htext ▸ hat, hs, ?_, (congrArg (·.span.stop) heq).symm⟩
    rw [heq, TagShape.startTag, String.toList_ofList]
  · rintro ⟨s, o, f, rfl, hat, hs, hname, hstop⟩
    refine ⟨⟨_, hat, TagShape.scan_eq hs o⟩, ?_, hstop⟩
    rw [TagShape.startTag, ← hname, String.ofList_toList]

theorem openTag?_spec (gap : Span) (comments : List Span) (hgap : source.isBoundary gap.start = true)
    (hstop : gap.stop = b.content.start) (hname : ∀ c ∈ b.tag.toList, Token.isNameChar c = true) :
    let Seen (tag : StartTag) := Opens source b.tag b.content.start tag ∧ gap.start ≤ tag.span.start ∧
      comments.any (·.overlaps ⟨tag.span.start, tag.nameSpan.stop⟩) = false
    (∀ tag ∈ openTag? source gap b comments, Seen tag) ∧
      (openTag? source gap b comments = none → ∀ tag, ¬ Seen tag) := by
  have hone : ('<' : Char).utf8Size = 1 := rfl
  refine ⟨fun tag htag => ?_, ?_⟩
  · obtain ⟨s, o, f, rfl, hat, hs, hhas, hge, hend, hclear⟩ := exists_of_openTag? hgap htag
    have hword := (TagShape.hasName_iff hs hname).mp hhas
    rw [hword, Text.size_cons, hone, ← Nat.add_assoc] at hclear
    exact ⟨opens_iff.mpr ⟨s, o, f, rfl, hat, hs, hword, hend⟩, hge, hclear⟩
  · rintro hnone tag ⟨hopens, hge, hclear⟩
    obtain ⟨s, o, f, rfl, hat, hs, hword, hend⟩ := opens_iff.mp hopens
    obtain ⟨text, htext⟩ := At.of_isBoundary hgap
    rw [openTag?_eq, skipTo_eq (At.zero source) htext (Nat.zero_le _), hword, ← hend] at hnone
    have hacc := tagEnding?_eq hs o ((TagShape.hasName_iff hs hs.name.chars).mpr rfl)
    have happ : s.text ++ f = ('<' :: s.name) ++ (s.tail ++ f) := by simp [TagShape.text]
    rw [happ] at hat hacc
    refine lastTag?_ne_none (by simp) htext hat hge ?_ ?_ (by rw [hacc]; simp) hnone
    · rw [hstop, ← hend, TagShape.text, ← List.cons_append, Text.size_append]
      omega
    · rw [Text.size_cons, hone, ← Nat.add_assoc]
      exact hclear

/-- A start tag of the block that can be seen in a document: it lies behind the blocks before, and its
name in no comment. -/
structure Document.Shows (d : Document) (b : Block) (tag : StartTag) : Prop where
  opens : Opens d.source b.tag b.content.start tag
  behind : ∀ e ∈ d.blocks, e.content.start < b.content.start → e.closeTag.stop ≤ tag.span.start
  clear : d.comments.any (·.overlaps ⟨tag.span.start, tag.nameSpan.stop⟩) = false

theorem shows_iff : (Document.parse keepEmpty source).1.Shows (resolved keepEmpty source b) tag ↔
      Opens source b.tag b.content.start tag ∧
        reach (rawBlocks keepEmpty source) b.content.start ≤ tag.span.start ∧
        (outerComments source).any (·.overlaps ⟨tag.span.start, tag.nameSpan.stop⟩) = false := by
  obtain ⟨hblocks, hcomments, -⟩ := parse_resolved keepEmpty source
  rw [reach_le_iff]
  constructor
  · rintro ⟨hopens, hbehind, hclear⟩
    rw [tag_resolved, content_resolved] at hopens
    simp only [hblocks, List.forall_mem_map, content_resolved, closeTag_resolved] at hbehind
    exact ⟨hopens, hbehind, hcomments ▸ hclear⟩
  · rintro ⟨hopens, hbehind, hclear⟩
    refine ⟨?_, ?_, hcomments ▸ hclear⟩
    · rwa [tag_resolved, content_resolved]
    · simpa only [hblocks, List.forall_mem_map, content_resolved, closeTag_resolved] using hbehind

/-- A block keeps the start tag that can be seen for it, with the first attribute of each name. One for
which none can be seen is left without, and that is reported. Without empty blocks every block has a
start tag behind the blocks before, so that only a comment can hide it. -/
theorem parse_keeps_start_tag (keepEmpty : Bool) (source : Text) :
    let found := Document.parse keepEmpty source
    (∀ b ∈ found.1.blocks,
      (∃ tag, found.1.Shows b tag ∧ b.openTag = tag.span ∧
          b.attributes = firstOfEach tag.attrs ∧
          '<' :: b.tag.toList <+: b.openTag.text source ∧ ['>'] <:+ b.openTag.text source) ∨
        (∀ tag, ¬ found.1.Shows b tag) ∧ b.openTag = .empty b.content.start ∧ b.attributes = [] ∧
          ⟨.unexpectedToken ("<" ++ b.tag ++ "> start tag") "no start tag", b.openTag⟩ ∈ found.2) ∧
      (keepEmpty = false → ∀ b ∈ found.1.blocks, ∃ tag, Opens source b.tag b.content.start tag ∧
        ∀ e ∈ found.1.blocks, e.content.start < b.content.start → e.closeTag.stop ≤ tag.span.start) := by
  obtain ⟨hblocks, -, herrors⟩ := parse_resolved keepEmpty source
  simp only [hblocks, List.forall_mem_map, shows_iff, tag_resolved, content_resolved, closeTag_resolved]
  refine ⟨fun b hb => ?_, ?_⟩
  · have hgap := isBoundary_reach (rawBlocks_rising keepEmpty source).1 b.content.start
    obtain ⟨hseen, hnone⟩ :=
      openTag?_spec (b.gap _) (outerComments source) hgap rfl (isNameChar_of_mem_tag hb)
    have herror := herrors b hb
    rw [resolved]
    unfold resolve at herror ⊢
    cases htag : openTag? source (b.gap (reach (rawBlocks keepEmpty source) b.content.start)) b
        (outerComments source) with
    | none =>
      simp only [htag] at herror
      exact .inr ⟨hnone htag, rfl, rfl, herror _ (by simp)⟩
    | some tag =>
      have hattrs : (attributes [] tag.attrs).1 = firstOfEach tag.attrs := by simp [attributes_eq]
      refine .inl ⟨tag, hseen tag htag, rfl, hattrs, ?_⟩
      obtain ⟨s, o, f, rfl, hat, -, hword, -⟩ := opens_iff.mp (hseen tag htag).1
      obtain ⟨v, hv⟩ := s.exists_tail
      have htext : Span.text (s.startTag o).span source = s.text := hat.slice
      simp only [htext, hword]
      exact ⟨⟨s.tail, rfl⟩, ⟨'<' :: (s.name ++ v), by simp [TagShape.text, hv]⟩⟩
  · rintro rfl b hb
    have hmem {r : RawBlock} (hr : r ∈ rawBlocks false source) : r ∈ knownBlocks source := by
      simpa [mem_rawBlocks] using hr
    obtain ⟨a, s, g, hsource, hs, hname, hstart, hbefore⟩ := exists_tag_of_mem (hmem hb)
    simp only [Nat.zero_add] at hstart hbefore
    refine ⟨s.startTag a.size, opens_iff.mpr ⟨s, a.size, g, rfl, ⟨a, hsource, rfl⟩, hs, ?_, hstart.symm⟩,
      fun r hr => hbefore r (hmem hr)⟩
    rw [hname, String.toList_ofList]

/-- The sweep for comments begins one in the quotes of an attribute, though the scan for blocks does not;
the block behind loses its start tag. -/
theorem comment_mark_hides_start_tag :
    let found := Document.parse false "<a b=\"<!--\"/><script>x</script>".toList
    found.1.blocks.map (fun b => (b.tag, b.openTag)) = [("script", ⟨21, 21⟩)] ∧
      found.2.map (·.kind) = [.unexpectedToken "<script> start tag" "no start tag"] := by
  decide +kernel

end Markup
end SfcTsx
