import SfcTsx.Proofs.Markup.Around

namespace SfcTsx.Markup

open Text (At)

variable {offset : Nat} {tag : TagShape} {keepEmpty : Bool}

theorem rawClose?_of_cutAt? {name t p w : Text}
    (h : Text.cutAt? (("</" : String) ++ name) t = some (p, w)) (offset : Nat) :
    rawClose? name offset t = rawClose? name (offset + p.size) w := by
  induction t generalizing p offset with
  | nil => cases h
  | cons c t ih =>
    rw [Text.cutAt?] at h
    split at h
    next =>
      obtain ⟨rfl, rfl⟩ : [] = p ∧ c :: t = w := by simpa using h
      rfl
    next hprefix =>
      obtain ⟨⟨a, b⟩, hcut, heq⟩ := Option.map_eq_some_iff.mp h
      obtain ⟨rfl, rfl⟩ : c :: a = p ∧ b = w := by simpa using heq
      have hnone : closeTagAt? name offset (c :: t) = none := by
        cases hclose : closeTagAt? name offset (c :: t) with
        | none => rfl
        | some close =>
          obtain ⟨blank, f, htext, -, -⟩ := exists_of_closeTagAt? hclose
          refine absurd (List.isPrefixOf_iff_prefix.mpr ⟨blank ++ '>' :: f, ?_⟩) hprefix
          rw [htext]
          simp [closingText]
      rw [rawClose?, hnone, Text.size_cons, ← Nat.add_assoc]
      exact ih hcut _

theorem exists_of_rawClose? {name t : Text} {close : Span}
    (h : rawClose? name offset t = some close) :
    ∃ p w, t = p ++ w ∧ close.start = offset + Text.size p ∧
      closeTagAt? name close.start w = some close := by
  induction t generalizing offset with
  | nil => cases h
  | cons c t ih =>
    rw [rawClose?] at h
    split at h
    next found hfound =>
      obtain rfl := Option.some.inj h
      obtain ⟨blank, f, -, -, rfl⟩ := exists_of_closeTagAt? hfound
      exact ⟨[], c :: t, rfl, rfl, hfound⟩
    next =>
      obtain ⟨p, w, rfl, hstart, hclose⟩ := ih h
      refine ⟨c :: p, w, rfl, ?_, hclose⟩
      rw [hstart, Text.size_cons, Nat.add_assoc]

section raw
variable {name x y close f : Text} (hraw : (BlockKind.ofTag (String.ofList name)).isRaw = true)
include hraw

theorem Extent.exists_closing (h : Extent name x close true f) :
    ∃ blank, close = closingText name blank ∧ ∀ c ∈ blank, Text.isSpace c = true := by
  have hfound : rawClose? name 0 (x ++ (close ++ f)) = some ⟨x.size, x.size + close.size⟩ := by
    have hclose : closeFrom name 0 (x ++ (close ++ f)) = _ := h
    rwa [closeFrom, if_pos hraw] at hclose
  obtain ⟨p, w, hsplit, hstart, hclose⟩ := exists_of_rawClose? hfound
  obtain ⟨blank, g, rfl, hblank, hspan⟩ := exists_of_closeTagAt? hclose
  have hsize : close.size = (closingText name blank).size := by
    have hstop := congrArg Span.stop hspan
    simp only at hstop
    omega
  have htotal := congrArg Text.size hsplit
  simp only [Text.size_append] at htotal hstart
  obtain ⟨-, hclosing⟩ := Text.append_inj_of_size hsplit (by
    simp only [Text.size_append]
    omega)
  exact ⟨blank, (Text.append_inj_of_size hclosing (by omega)).1, hblank⟩

theorem Extent.of_raw (hname : '<' ∉ name)
    (hy : Text.contains (("</" : String) ++ name) y = false) (h : Extent name x close true f) :
    Extent name y close true f := by
  obtain ⟨blank, rfl, hblank⟩ := h.exists_closing hraw
  -- The first place with the beginning of a closing tag is behind the new content.
  have hparted : Text.Parted (("</" : String) ++ name) y (closingText name blank ++ f) := by
    apply Text.Parted.of_head
    intro c hc
    obtain rfl : '<' = c := by simpa [closingText] using hc
    show '<' ∉ '/' :: name
    simpa using hname
  have hhere : Text.cutAt? (("</" : String) ++ name) (closingText name blank ++ f) =
      some ([], closingText name blank ++ f) := by
    have hprefix : List.isPrefixOf (("</" : String).toList ++ name) (closingText name blank ++ f) =
        true := List.isPrefixOf_iff_prefix.mpr ⟨blank ++ '>' :: f, by simp [closingText]⟩
    exact if_pos hprefix
  have hnone : Text.cutAt? (("</" : String) ++ name) y = none :=
    Option.isNone_iff_eq_none.mp (by simpa [Text.contains] using hy)
  have hcut : Text.cutAt? (("</" : String) ++ name) (y ++ (closingText name blank ++ f)) =
      some (y, closingText name blank ++ f) := by
    rw [Text.cutAt?_append (by simp) hparted, hnone, hhere]
    simp
  have hfirst : rawClose? name y.size (closingText name blank ++ f) =
      some ⟨y.size, y.size + (closingText name blank).size⟩ := by
    obtain ⟨c, t, ht⟩ : ∃ c t, closingText name blank ++ f = c :: t := ⟨_, _, rfl⟩
    have hat := @closeTagAt?_eq name _ hblank y.size f
    rw [ht] at hat ⊢
    rw [rawClose?, hat]
  show closeFrom name 0 (y ++ (closingText name blank ++ f)) = _
  rw [closeFrom, if_pos hraw, rawClose?_of_cutAt? hcut, Nat.zero_add, hfirst]

end raw

theorem exists_script {x back : Text} {b : RawBlock} (htag : tag.Fits (x ++ back))
    (hb : b ∈ blocksAt offset (tag.text ++ (x ++ back)))
    (hcontent : b.content = ⟨offset + tag.text.size, offset + tag.text.size + x.size⟩)
    (hclose : b.close.start < b.close.stop) :
    ∃ (tag' : TagShape) (close tail : Text), tag'.text = tag.text ∧ back = close ++ tail ∧
      (Piece.block tag' x close true).Fits tail ∧ b.tag = String.ofList tag'.name := by
  obtain ⟨r, hr⟩ : ∃ r, tag.text ++ (x ++ back) = '<' :: r := ⟨_, rfl⟩
  obtain ⟨s, w, hs, hfits⟩ := Piece.exists_piece r
  have htext : tag.text ++ (x ++ back) = s.text ++ w := hr.trans hs
  have hstart : b.content.start = offset + tag.text.size := by rw [hcontent]
  rw [htext] at hb
  have hpiece := blocksAt_piece (p := []) (by simp) hfits offset
  rw [List.nil_append, Text.size_nil, Nat.add_zero] at hpiece
  rw [hpiece] at hb
  rcases List.mem_append.mp hb with hown | hmore
  · obtain ⟨tag', inner, close, closed, rfl, rfl⟩ := Piece.exists_of_mem_blocks hown
    simp only [Span.mk.injEq, Piece.text_block, Text.size_append] at hcontent hclose
    have hparts : tag.text ++ (x ++ back) = tag'.text ++ (inner ++ (close ++ w)) := by
      rw [htext]
      simp [Piece.text_block]
    have hsize := congrArg Text.size hparts
    simp only [Text.size_append] at hsize
    obtain ⟨hopening, hrest⟩ := Text.append_inj_of_size hparts (by
      simp only [Text.size_append]
      omega)
    obtain ⟨rfl, rfl⟩ := Text.append_inj_of_size hrest (by
      simp only [Text.size_append]
      omega)
    cases closed with
    | true => exact ⟨tag', close, w, hopening.symm, rfl, hfits, rfl⟩
    | false =>
      obtain ⟨-, -, rfl, -⟩ := hfits
      simp only [Text.size_nil] at hclose
      omega
  · -- A later block has a start tag that ends at the same place, so it is not later.
    obtain ⟨a, tag', g, rfl, htag', -, hstart', -⟩ := exists_tag_of_mem hmore
    have hsame : (s.text ++ a) ++ (tag'.text ++ g) = [] ++ (tag.text ++ (x ++ back)) := by
      rw [List.nil_append, htext, List.append_assoc]
    have hsize := congrArg Text.size hsame
    simp only [List.nil_append, Text.size_append] at hsize
    have hnil := TagShape.start_unique htag' htag hsame (by rw [Text.size_append]; omega)
    exact absurd (List.append_eq_nil_iff.mp hnil).1 s.text_ne_nil

/-- All that begins in the text up to the content of a script ends there, and all that begins in the
content does. -/
structure Enclosed (keepEmpty : Bool) (pre z back : Text) : Prop where
  comments_front : commentsEnd false 0 pre = true
  comments : commentsEnd false 0 z = true
  elements_front : keepEmpty = true → elementsEnd (z ++ back) pre = true
  elements : keepEmpty = true → elementsEnd back z = true

theorem Around.of_piece {front z close tail : Text} {before : List RawBlock}
    (hfits : (Piece.block tag z close true).Fits tail) (hname : String.ofList tag.name = "script")
    (hz : Text.isBlank z = false) (hbefore : ∀ c ∈ before, c.close.stop ≤ front.size)
    (hfront : blocksAt 0 (front ++ (tag.text ++ (z ++ (close ++ tail)))) =
      before ++ blocksAt front.size (tag.text ++ (z ++ (close ++ tail))))
    (hends : Enclosed keepEmpty (front ++ tag.text) z (close ++ tail)) :
    Around keepEmpty (front ++ tag.text) z (close ++ tail) close before (blocksAt close.size tail) := by
  obtain ⟨blank, rfl, -⟩ := Extent.exists_closing (by rw [hname]; rfl) hfits.2.2
  refine ⟨?_, ?_, ?_, ?_, ?_⟩
  · rintro rfl
    cases hz
  · intro b hb
    have hle := hbefore b hb
    rw [Text.size_append]
    omega
  · have hpiece := blocksAt_piece (p := []) (by simp) hfits front.size
    have hshift := blocksAt_shift (closingText tag.name blank).size ((front ++ tag.text).size + z.size) tail
    have hstop : front.size + (tag.text ++ (z ++ closingText tag.name blank)).size =
        (closingText tag.name blank).size + ((front ++ tag.text).size + z.size) := by
      simp only [Text.size_append]
      omega
    simp only [List.nil_append, Piece.text_block, Text.size_nil, Nat.add_zero, hstop, hshift, Piece.blocks, hz,
      Bool.false_and, Bool.false_eq_true, if_false, hname, List.append_assoc] at hpiece
    show blocksAt 0 (front ++ tag.text ++ (z ++ (closingText tag.name blank ++ tail))) = _
    rw [List.append_assoc, hfront, hpiece]
    simp only [blocksAround, scriptAt, Text.size_append, List.singleton_append]
  · have hlast : ∀ c ∈ (front ++ tag.text).getLast?, c ∉ ("<!--" : String).toList.dropLast := by
      intro c hc
      obtain ⟨v, hv⟩ := tag.exists_tail
      obtain rfl : '>' = c := by
        rw [TagShape.text, hv, ← List.append_assoc, ← List.cons_append, ← List.append_assoc,
          List.getLast?_concat] at hc
        exact Option.some.inj hc
      decide
    have hhead : ∀ c ∈ (closingText tag.name blank ++ tail).head?, c ∉ ("<!--" : String).toList.tail := by
      intro c hc
      obtain rfl : '<' = c := by simpa [closingText] using hc
      decide
    have hshift := commentsAt_shift 0 ((front ++ tag.text).size + z.size)
      (closingText tag.name blank ++ tail)
    rw [commentsAt_append hends.comments_front (.of_last hlast), Nat.zero_add,
      commentsAt_append hends.comments (.of_head hhead), ← hshift, Nat.zero_add]
  · intro hkeep
    have hshift := elementsAt_shift 0 ((front ++ tag.text).size + z.size)
      (closingText tag.name blank ++ tail)
    rw [elementsAt_append (hends.elements_front hkeep), Nat.zero_add,
      elementsAt_append (hends.elements hkeep), ← hshift, Nat.zero_add]

theorem TagShape.exists_of_scan_span {t : Text} {stop : Nat}
    (h : (StartTag.scan offset t).toOption.map (·.span) = some ⟨offset, stop⟩) :
    ∃ (s : TagShape) (f : Text), t = s.text ++ f ∧ s.Fits f ∧ stop = offset + s.text.size := by
  obtain ⟨tag, htag, hspan⟩ := Option.map_eq_some_iff.mp h
  have hscan : StartTag.scan offset t = .ok tag := by
    cases hs : StartTag.scan offset t with
    | error e =>
      rw [hs] at htag
      cases htag
    | ok found =>
      rw [hs] at htag
      exact congrArg _ (Option.some.inj htag)
  obtain ⟨b, k, u, f, rfl, hb, hk⟩ := Lexed.exists_next t
  have hread := hscan
  rw [StartTag.scan, Lexed.next_eq hb hk] at hread
  by_cases hkind : k = .openAngle
  · simp only [hkind, ne_eq, not_true_eq_false, if_false] at hread
    split at hread
    · cases hread
    · obtain ⟨⟨attrs, last⟩, -, hok⟩ := exists_of_bind_ok hread
      have hstart : offset + b.size = offset := by
        have hboth := congrArg Span.start hspan
        rwa [← Except.ok.inj hok] at hboth
      obtain rfl : b = [] := Text.size_eq_zero.mp (by omega)
      subst hkind
      cases hk with
      | openAngle hf =>
        obtain ⟨s, g, htext, hs, rfl⟩ := exists_of_scan hscan
        exact ⟨s, g, htext, hs, (congrArg Span.stop hspan).symm⟩
  · simp [hkind] at hread

theorem exists_known {source : Text} {b : Block}
    (hb : b ∈ (Document.parse keepEmpty source).1.blocks)
    (hcontent : Text.isBlank (b.content.text source) = false) :
    ∃ raw ∈ knownBlocks source, raw.tag = b.tag ∧ raw.content = b.content ∧ raw.close = b.closeTag := by
  rw [parse_blocks_eq] at hb
  obtain ⟨raw, hraw, rfl⟩ := List.mem_map.mp hb
  rw [content_resolved] at hcontent
  rcases mem_rawBlocks.mp hraw with hknown | ⟨-, hempty⟩
  · exact ⟨raw, hknown, (tag_resolved ..).symm, (content_resolved ..).symm,
      (closeTag_resolved ..).symm⟩
  · rw [isBlank_of_mem_emptyBlocks hempty] at hcontent
    cases hcontent

/-- Scripts have any content. Where the scan finds a closed script with a content that is not blank,
another content that is not blank and does not have the beginning of a closing tag leaves all blocks
as they are: those in front stay, and those behind stand further on, with all their spans. This asks
that nothing else in front is open: no start tag runs into the script, no block in front is without its
closing tag, and no comment or element without content crosses an end of the content. -/
theorem parse_script_content {keepEmpty : Bool} {front opening x y back : Text} {b : Block}
    (hopening : (StartTag.scan front.size (opening ++ (x ++ back))).toOption.map (·.span) =
      some ⟨front.size, (front ++ opening).size⟩)
    (hb : b ∈ (Document.parse keepEmpty (front ++ opening ++ (x ++ back))).1.blocks)
    (hscript : b.tag = "script")
    (hcontent : b.content = ⟨(front ++ opening).size, (front ++ opening).size + x.size⟩)
    (hclosed : b.isClosed = true) (hx : Text.isBlank x = false) (hy : Text.isBlank y = false)
    (hfree : Text.contains ("</script" : String) y = false)
    (htags : startTagsEnd (opening ++ (y ++ back)) front = true)
    (hopen : ∀ e ∈ (Document.parse keepEmpty (front ++ opening ++ (x ++ back))).2, ∀ name,
      e.kind = .unclosedBlock name → front.size < e.span.start)
    (hends : Enclosed keepEmpty (front ++ opening) x back)
    (hends' : Enclosed keepEmpty (front ++ opening) y back) :
    (Document.parse keepEmpty (front ++ opening ++ (y ++ back))).1.blocks =
      (Document.parse keepEmpty (front ++ opening ++ (x ++ back))).1.blocks.map
        (·.mapOffsets (moved (front ++ opening).size x.size y.size)) := by
  obtain ⟨s, f, htext, hs, hstop⟩ := TagShape.exists_of_scan_span hopening
  obtain ⟨rfl, rfl⟩ : opening = s.text ∧ x ++ back = f := by
    have hsize := congrArg Text.size htext
    simp only [Text.size_append] at hstop hsize
    exact Text.append_inj_of_size htext (by rw [Text.size_append]; omega)
  have hslice : b.content.text (front ++ s.text ++ (x ++ back)) = x := by
    have hat : At (front ++ s.text ++ (x ++ back)) (front ++ s.text).size (x ++ back) := ⟨_, rfl, rfl⟩
    rw [hcontent]
    exact hat.slice
  obtain ⟨raw, hraw, hrawTag, hrawContent, hrawClose⟩ := exists_known hb (by rw [hslice, hx])
  rw [hcontent] at hrawContent
  have hstart : raw.content.start = 0 + front.size + s.text.size := by
    rw [hrawContent, Text.size_append, Nat.zero_add]
  -- The scan finds the same in front of the script.
  have hknown : raw ∈ blocksAt 0 (front ++ (s.text ++ (x ++ back))) := by
    rw [← List.append_assoc]
    exact hraw
  obtain ⟨before, hfront, hfront', hbefore⟩ := blocksAt_front hs htags hknown hstart
    (Nat.lt_succ_self _) (by
      rw [← List.append_assoc, Nat.zero_add]
      intro e he
      exact hopen e (List.mem_append_left _ (List.mem_append_left _ he)))
  rw [Nat.zero_add] at hfront hfront' hbefore
  have hbehind := (scanBlocks_rising _ (At.zero (front ++ s.text ++ (x ++ back)))).1 raw hraw
  have hscriptMem : raw ∈ blocksAt front.size (s.text ++ (x ++ back)) := by
    rw [hfront] at hknown
    rcases List.mem_append.mp hknown with hmem | hmem
    · have hle := hbefore raw hmem
      have hstop := hbehind.start_le
      have hpos : 0 < s.text.size := Text.size_pos (by simp [TagShape.text])
      omega
    · exact hmem
  have hlt : raw.close.start < raw.close.stop := by
    have hne : raw.close.start ≠ raw.close.stop := by
      rw [hrawClose]
      simpa [Block.isClosed, Span.isEmpty] using hclosed
    exact lt_of_le_of_ne hbehind.close_le hne
  obtain ⟨tag, close, tail, htagText, rfl, hfits, hname⟩ := exists_script hs hscriptMem
    (by rw [hrawContent, Text.size_append]) hlt
  have hscriptName : String.ofList tag.name = "script" := by rw [← hname, hrawTag, hscript]
  have hfits' : (Piece.block tag y close true).Fits tail := by
    obtain ⟨htagFits, hsc, hext⟩ := hfits
    have hletters : tag.name = ("script" : String).toList := by
      rw [← hscriptName, String.toList_ofList]
    refine ⟨htagFits.congr _, hsc, hext.of_raw ?_ ?_ ?_⟩
    · rw [hscriptName]
      rfl
    · rw [hletters]
      decide
    · rw [hletters]
      exact hfree
  rw [← htagText] at hfront hfront' hends hends' ⊢
  exact (Around.of_piece hfits hscriptName hx hbefore hfront hends).parse_moved
    (Around.of_piece hfits' hscriptName hy hbefore hfront' hends')

theorem parse_errors_eq (keepEmpty : Bool) (source : Text) :
    (Document.parse keepEmpty source).2 =
      let found := resolveAll source (outerComments source) 0 (rawBlocks keepEmpty source)
      (scanBlocks (source.length + 1) 0 source).2 ++ found.2 ++ duplicates [] found.1 := by
  rw [← filter_covers_rawBlocks keepEmpty source]
  rfl

namespace Sample

def front : Text := ("<p>b</p>" : String)

def opening : Text := ("<script setup>" : String)

def back : Text := ("</script><template></template>" : String)

def plain : Text := ("a" : String)

def marked : Text := ("'<b></b>' <!-- c -->" : String)

end Sample

open Sample in
/-- Markup and comments in a script leave the blocks around it as they are. -/
theorem parse_marked_script :
    (Document.parse true (front ++ opening ++ (marked ++ back))).1.blocks =
      (Document.parse true (front ++ opening ++ (plain ++ back))).1.blocks.map
        (·.mapOffsets (moved (front ++ opening).size plain.size marked.size)) := by
  have hpre : Text.size (front ++ opening) = 22 := by decide +kernel
  have hplain : plain.size = 1 := by decide +kernel
  have hknown : knownBlocks (front ++ opening ++ (plain ++ back)) =
      [⟨"p", ⟨3, 4⟩, ⟨4, 8⟩⟩, ⟨"script", ⟨22, 23⟩, ⟨23, 32⟩⟩] := by decide +kernel
  have hempty : emptyBlocks (front ++ opening ++ (plain ++ back)) =
      [⟨"template", ⟨42, 42⟩, ⟨42, 53⟩⟩] := by decide +kernel
  have hraw : rawBlocks true (front ++ opening ++ (plain ++ back)) =
      [⟨"p", ⟨3, 4⟩, ⟨4, 8⟩⟩, ⟨"script", ⟨22, 23⟩, ⟨23, 32⟩⟩, ⟨"template", ⟨42, 42⟩, ⟨42, 53⟩⟩] := by
    rw [rawBlocks, if_pos rfl, hknown, hempty]
    simp [List.mergeSort]
  have hmem : resolved true (front ++ opening ++ (plain ++ back)) ⟨"script", ⟨22, 23⟩, ⟨23, 32⟩⟩ ∈
      (Document.parse true (front ++ opening ++ (plain ++ back))).1.blocks := by
    rw [parse_blocks_eq, hraw]
    exact List.mem_map_of_mem (by simp)
  have hnone : (Document.parse true (front ++ opening ++ (plain ++ back))).2 = [] := by
    apply List.eq_nil_of_length_eq_zero
    rw [parse_errors_eq, hraw]
    decide +kernel
  apply parse_script_content (by decide +kernel) hmem (tag_resolved ..)
  · rw [content_resolved, hpre, hplain]
  · rw [Block.isClosed, closeTag_resolved]
    decide
  · decide +kernel
  · decide +kernel
  · decide +kernel
  · decide +kernel
  · rw [hnone]
    simp
  · exact ⟨by decide +kernel, by decide +kernel, fun _ => by decide +kernel, fun _ => by decide +kernel⟩
  · exact ⟨by decide +kernel, by decide +kernel, fun _ => by decide +kernel, fun _ => by decide +kernel⟩

/-- The opening of a comment in a string of a script takes the rest of the document for a comment: the
element without content behind the script is no block any more. -/
theorem comment_in_script_hides_block :
    (Document.parse true ("<script>x</script><template></template>" : String).toList).1.blocks.map
        (·.tag) = ["script", "template"] ∧
      (Document.parse true ("<script>'<!--'</script><template></template>" : String).toList).1.blocks.map
        (·.tag) = ["script"] := by
  have hknown : knownBlocks ("<script>x</script><template></template>" : String).toList =
      [⟨"script", ⟨8, 9⟩, ⟨9, 18⟩⟩] := by decide +kernel
  have hempty : emptyBlocks ("<script>x</script><template></template>" : String).toList =
      [⟨"template", ⟨28, 28⟩, ⟨28, 39⟩⟩] := by decide +kernel
  have hall : rawBlocks true ("<script>x</script><template></template>" : String).toList =
      [⟨"script", ⟨8, 9⟩, ⟨9, 18⟩⟩, ⟨"template", ⟨28, 28⟩, ⟨28, 39⟩⟩] := by
    rw [rawBlocks, if_pos rfl, hknown, hempty]
    simp [List.mergeSort]
  have hknown' : knownBlocks ("<script>'<!--'</script><template></template>" : String).toList =
      [⟨"script", ⟨8, 14⟩, ⟨14, 23⟩⟩] := by decide +kernel
  have hempty' : emptyBlocks ("<script>'<!--'</script><template></template>" : String).toList = [] := by
    decide +kernel
  have hfew : rawBlocks true ("<script>'<!--'</script><template></template>" : String).toList =
      [⟨"script", ⟨8, 14⟩, ⟨14, 23⟩⟩] := by
    rw [rawBlocks, if_pos rfl, hknown', hempty']
    simp
  simp only [parse_blocks_eq, hall, hfew, List.map_cons, List.map_nil, tag_resolved, and_self]

end SfcTsx.Markup
