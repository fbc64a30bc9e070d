import SfcTsx.Proofs.Markup.Quotes
import SfcTsx.Proofs.Markup.Scan

namespace SfcTsx.Markup

open Template (Closes)

variable {t u f g name r d : Text} {offset : Nat} {close : Span} {tag : TagShape} {b : RawBlock}

/-- No start tag that begins in the text ends in what follows. -/
def startTagsEnd (follow : Text) : Text → Bool
  | [] => true
  | c :: cs =>
    (c != '<' ||
      match StartTag.scan 0 (c :: (cs ++ follow)) with
      | .ok tag => decide (tag.span.stop ≤ Text.size (c :: cs))
      | .error _ => true) && startTagsEnd follow cs

theorem startTagsEnd_of_append {follow : Text} (h : startTagsEnd follow (t ++ u) = true) :
    startTagsEnd follow u = true := by
  induction t with
  | nil => exact h
  | cons c t ih =>
    rw [List.cons_append, startTagsEnd, Bool.and_eq_true] at h
    exact ih h.2

theorem exists_append_of_size_le {a b v w : Text} (h : a ++ v = b ++ w) (hle : b.size ≤ a.size) :
    ∃ d, a = b ++ d ∧ w = d ++ v := by
  obtain ⟨d, rfl, hd⟩ | ⟨d, rfl, hd⟩ := List.append_eq_append_iff.mp h
  · rw [Text.size_append] at hle
    obtain rfl : d = [] := Text.size_eq_zero.mp (by omega)
    exact ⟨[], by simp, by simpa using hd.symm⟩
  · exact ⟨d, rfl, hd⟩

theorem exists_rest_of_startTagsEnd {s : TagShape} (h : startTagsEnd f ('<' :: r) = true)
    (heq : '<' :: (r ++ f) = s.text ++ g) (hs : s.Fits g) :
    ∃ d, '<' :: r = s.text ++ d ∧ g = d ++ f := by
  rw [startTagsEnd, heq, TagShape.scan_eq hs, Bool.and_eq_true] at h
  have hle : s.text.size ≤ Text.size ('<' :: r) := by
    simpa [TagShape.startTag] using h.1
  exact exists_append_of_size_le (a := '<' :: r) heq hle

theorem not_fits_congr (htags : startTagsEnd g ('<' :: d) = true)
    (h : ∀ s w, '<' :: (d ++ f) = TagShape.text s ++ w → ¬ s.Fits w) :
    ∀ s w, '<' :: (d ++ g) = TagShape.text s ++ w → ¬ s.Fits w := by
  intro s w htext hs
  obtain ⟨e, he, -⟩ := exists_rest_of_startTagsEnd htags htext hs
  have htext' : '<' :: (d ++ f) = s.text ++ (e ++ f) := by
    rw [← List.cons_append, he, List.append_assoc]
  exact h s _ htext' (hs.congr _)

theorem hasName_append_cons {c : Char} (hname : c ∉ name) (f g : Text) :
    StartTag.hasName name (r ++ c :: f) = StartTag.hasName name (r ++ c :: g) := by
  unfold StartTag.hasName
  induction name generalizing r with
  | nil => cases r <;> rfl
  | cons d name ih =>
    have hd : d ≠ c := fun he => hname (by simp [he])
    cases r with
    | nil => simp [Text.after?, hd]
    | cons e r =>
      by_cases hde : d = e
      · simpa [Text.after?, hde] using ih fun hmem => hname (by simp [hmem])
      · simp [Text.after?, hde]

section angle
-- Two ways in which a text may go on, both with a bracket.
variable (hf : f.head? = some '<') (hg : g.head? = some '<')
include hf hg

theorem after?_eq_none_congr {p : Text} (hp : '<' ∉ p) (h : Text.after? p (r ++ f) = none) :
    Text.after? p (r ++ g) = none := by
  obtain ⟨f', rfl⟩ := List.head?_eq_some_iff.mp hf
  obtain ⟨g', rfl⟩ := List.head?_eq_some_iff.mp hg
  induction p generalizing r with
  | nil => cases h
  | cons c p ih =>
    have hc : c ≠ '<' := fun he => hp (by simp [he])
    cases r with
    | nil => simp [Text.after?, hc]
    | cons d r =>
      rw [List.cons_append, Text.after?] at h ⊢
      split
      next heq =>
        rw [if_pos heq] at h
        exact ih (fun hmem => hp (by simp [hmem])) h
      next => rfl

theorem hasName_congr (hname : '<' ∉ name) :
    StartTag.hasName name (r ++ f) = StartTag.hasName name (r ++ g) := by
  obtain ⟨f', rfl⟩ := List.head?_eq_some_iff.mp hf
  obtain ⟨g', rfl⟩ := List.head?_eq_some_iff.mp hg
  exact hasName_append_cons hname f' g'

omit hg in
theorem exists_rest_of_angle {c w : Text} (hc : '<' ∉ c) (h : '<' :: (r ++ f) = '<' :: (c ++ w)) :
    ∃ d, r = c ++ d ∧ w = d ++ f := by
  obtain ⟨f', rfl⟩ := List.head?_eq_some_iff.mp hf
  obtain ⟨d, rfl, hd⟩ | ⟨d, rfl, hd⟩ := List.append_eq_append_iff.mp (List.cons.inj h).2
  · cases d with
    | nil => exact ⟨[], by simp, by simpa using hd.symm⟩
    | cons e d =>
      obtain ⟨rfl, -⟩ := List.cons.inj hd
      exact absurd (by simp) hc
  · exact ⟨d, rfl, hd⟩

omit hf in
theorem closeTagAt?_eq_none_congr (hname : '<' ∉ name)
    (h : closeTagAt? name offset ('<' :: (r ++ f)) = none) :
    closeTagAt? name offset ('<' :: (r ++ g)) = none := by
  cases hclose : closeTagAt? name offset ('<' :: (r ++ g)) with
  | none => rfl
  | some close =>
    obtain ⟨blank, w, htext, hb, -⟩ := exists_of_closeTagAt? hclose
    have hangle : '<' ∉ '/' :: (name ++ (blank ++ ['>'])) := by
      simp only [List.mem_cons, List.mem_append, List.not_mem_nil, or_false, not_or]
      refine ⟨by decide, hname, fun hmem => ?_, by decide⟩
      exact absurd (hb _ hmem) (by decide)
    obtain ⟨d, rfl, -⟩ := exists_rest_of_angle hg hangle htext
    have hsome := @closeTagAt?_eq name _ hb offset (d ++ f)
    rw [show closingText name blank ++ (d ++ f) =
      '<' :: ('/' :: (name ++ (blank ++ ['>'])) ++ d ++ f) by simp [closingText], h] at hsome
    cases hsome

omit hf in
theorem rawClose?_congr (hname : '<' ∉ name) (h : rawClose? name offset (u ++ f) = some close)
    (hle : close.stop ≤ offset + u.size) : rawClose? name offset (u ++ g) = some close := by
  induction u generalizing offset with
  | nil =>
    obtain ⟨source, hat⟩ := Text.At.exists_source offset ([] ++ f)
    have hcloses := rawClose?_closes hat h
    have := hcloses.le
    have := hcloses.lt
    simp only [Text.size_nil] at hle
    omega
  | cons c u ih =>
    rw [List.cons_append, rawClose?] at h ⊢
    cases hclose : closeTagAt? name offset (c :: (u ++ f)) with
    | some found =>
      rw [hclose] at h
      obtain rfl := Option.some.inj h
      obtain ⟨blank, w, htext, hb, rfl⟩ := exists_of_closeTagAt? hclose
      obtain ⟨d, hd, -⟩ := exists_append_of_size_le (a := c :: u) htext (by simpa using hle)
      rw [← List.cons_append, hd, List.append_assoc, closeTagAt?_eq hb]
    | none =>
      rw [hclose] at h
      have hnone : closeTagAt? name offset (c :: (u ++ g)) = none := by
        by_cases hc : c = '<'
        · subst hc
          exact closeTagAt?_eq_none_congr hg hname hclose
        · have hafter : Text.after? (("</" : String) ++ name) (c :: (u ++ g)) = none := by
            show Text.after? ('<' :: '/' :: name) _ = none
            rw [Text.after?, if_neg (Ne.symm hc)]
          rw [closeTagAt?, hafter]
          rfl
      rw [hnone]
      exact ih h (by simp only [Text.size_cons] at hle; omega)

end angle

theorem Template.Closes.congr {mark body : Text} (h : Closes mark body true f) (g : Text) :
    Closes mark body true g := by
  have hcut : Text.cutAt? mark (body ++ (mark ++ f)) = some (body, mark ++ f) := h
  show Text.cutAt? mark (body ++ (mark ++ g)) = some (body, mark ++ g)
  induction body with
  | nil =>
    cases mark with
    | nil =>
      cases g <;> rfl
    | cons c mark =>
      rw [List.nil_append, List.cons_append, Text.cutAt?, if_pos]
      exact List.isPrefixOf_iff_prefix.mpr ⟨g, rfl⟩
  | cons c body ih =>
    rw [List.cons_append, Text.cutAt?] at hcut ⊢
    split at hcut
    next => simp at hcut
    next hnot =>
      have hnot' : ¬ mark.isPrefixOf (c :: (body ++ (mark ++ g))) = true := by
        intro hp
        refine hnot (List.isPrefixOf_iff_prefix.mpr ?_)
        have hprefix := List.isPrefixOf_iff_prefix.mp hp
        have hlong : mark <+: (c :: (body ++ mark)) ++ g := by simpa using hprefix
        have hshort : mark <+: c :: (body ++ mark) := by
          refine List.prefix_of_prefix_length_le hlong (List.prefix_append _ g) ?_
          simp only [List.length_cons, List.length_append]
          omega
        simpa using hshort.trans (List.prefix_append _ f)
      obtain ⟨⟨x, y⟩, hxy, heq⟩ := Option.map_eq_some_iff.mp hcut
      obtain ⟨rfl, rfl⟩ : x = body ∧ y = mark ++ f := by simpa using heq
      rw [if_neg hnot', ih hxy hxy]
      rfl

section front
-- What stands in front of the place from which on the text is another one.
variable (hf : f.head? = some '<') (hg : g.head? = some '<')
include hf hg

theorem Mark.Fits.congr {m : Mark} (hname : '<' ∉ name) (h : m.Fits name (d ++ f))
    (htags : startTagsEnd g (m.text name ++ d) = true) : m.Fits name (d ++ g) := by
  cases m with
  | comment body closed =>
    cases closed with
    | true => exact Template.Closes.congr h _
    | false =>
      -- An open comment takes the whole text.
      have hnil : d ++ f = [] := h.1
      obtain ⟨-, rfl⟩ := List.append_eq_nil_iff.mp hnil
      cases hf
  | closing blank => exact h
  | opening tag =>
    refine ⟨h.1.congr _, ?_⟩
    have hcongr := hasName_congr hf hg (r := tag.name ++ (tag.tail ++ d)) hname
    simp only [List.append_assoc] at hcongr
    exact hcongr.symm.trans h.2
  | angle =>
    obtain ⟨hcomment, hclose, htag⟩ := h
    refine ⟨?_, closeTagAt?_eq_none_congr hg hname hclose, ?_⟩
    · exact after?_eq_none_congr hf hg (p := ("!--" : String).toList) (by decide) hcomment
    · intro hhas
      exact not_fits_congr htags (htag ((hasName_congr hf hg hname).trans hhas))

omit hf hg in
theorem Mark.le_stop_of_next {m : Mark} {fuel depth : Nat}
    (h : m.next name fuel depth offset f = some close) :
    offset + (m.text name).size ≤ close.stop := by
  have hlater : ∀ {depth}, nestedCloseFrom name fuel depth (offset + (m.text name).size) f = some close →
      offset + (m.text name).size ≤ close.stop := by
    intro depth hclose
    obtain ⟨source, hat⟩ := Text.At.exists_source (offset + (m.text name).size) f
    have hcloses := nestedCloseFrom_closes hat hclose
    exact hcloses.le.trans hcloses.lt.le
  cases m with
  | closing blank =>
    cases depth with
    | zero =>
      obtain rfl := Option.some.inj h
      exact le_rfl
    | succ depth => exact hlater h
  | _ => exact hlater h

theorem nestedCloseFrom_congr (hname : '<' ∉ name) {fuel fuel' depth : Nat}
    (htags : startTagsEnd g u = true)
    (h : nestedCloseFrom name fuel depth offset (u ++ f) = some close)
    (hle : close.stop ≤ offset + u.size) (hfuel : (u ++ g).length < fuel') :
    nestedCloseFrom name fuel' depth offset (u ++ g) = some close := by
  induction fuel generalizing u depth offset fuel' with
  | zero => cases h
  | succ fuel ih =>
    cases fuel' with
    | zero => omega
    | succ fuel' =>
      obtain hu | ⟨p, r, rfl, hp⟩ := angle_cases u
      · -- The first bracket stands where the texts go apart.
        obtain ⟨f', rfl⟩ := List.head?_eq_some_iff.mp hf
        rw [nestedCloseFrom_skip hu] at h
        obtain ⟨source, hat⟩ := Text.At.exists_source (offset + u.size) ('<' :: f')
        have hcloses := nestedCloseFrom_closes hat h
        have := hcloses.le
        have := hcloses.lt
        omega
      · obtain ⟨m, w, hm, hfits⟩ := Mark.exists_mark name (r ++ f)
        rw [List.append_assoc, List.cons_append, nestedCloseFrom_skip hp, hm,
          Mark.nestedCloseFrom_eq hfits] at h
        have hstop := Mark.le_stop_of_next h
        obtain ⟨d, hd, rfl⟩ := exists_append_of_size_le (a := '<' :: r) (b := m.text name) hm (by
          simp only [Text.size_append] at hle
          omega)
        have htags' : startTagsEnd g (m.text name ++ d) = true := hd ▸ startTagsEnd_of_append htags
        have hfits' := hfits.congr hf hg hname htags'
        rw [List.append_assoc, List.cons_append, nestedCloseFrom_skip hp, ← List.cons_append, hd,
          List.append_assoc, Mark.nestedCloseFrom_eq hfits']
        have hlen : (d ++ g).length < fuel' := by
          have hpos := List.length_pos_iff.mpr (m.text_ne_nil name)
          rw [hd] at hfuel
          simp only [List.length_append] at hfuel ⊢
          omega
        have hle' : close.stop ≤ offset + p.size + (m.text name).size + d.size := by
          rw [hd] at hle
          simp only [Text.size_append] at hle
          omega
        have hmore : ∀ {depth}, nestedCloseFrom name fuel depth
            (offset + p.size + (m.text name).size) (d ++ f) = some close →
            nestedCloseFrom name fuel' depth
              (offset + p.size + (m.text name).size) (d ++ g) = some close :=
          fun hclose => ih (startTagsEnd_of_append htags') hclose hle' hlen
        cases m with
        | closing blank =>
          cases depth with
          | zero => exact h
          | succ depth => exact hmore h
        | _ => exact hmore h

theorem Extent.congr {inner close : Text} (hname : '<' ∉ name)
    (htags : startTagsEnd g (inner ++ (close ++ d)) = true)
    (h : Extent name inner close true (d ++ f)) : Extent name inner close true (d ++ g) := by
  have hfound : closeFrom name 0 ((inner ++ (close ++ d)) ++ f) =
      some ⟨inner.size, inner.size + close.size⟩ := by simpa [Extent] using h
  have hle : inner.size + close.size ≤ 0 + (inner ++ (close ++ d)).size := by
    simp only [Text.size_append]
    omega
  have hfound' : closeFrom name 0 ((inner ++ (close ++ d)) ++ g) =
      some ⟨inner.size, inner.size + close.size⟩ := by
    unfold closeFrom at hfound ⊢
    split
    next hraw =>
      rw [if_pos hraw] at hfound
      exact rawClose?_congr hg hname hfound hle
    next hnested =>
      rw [if_neg hnested] at hfound
      exact nestedCloseFrom_congr hf hg hname htags hfound hle (Nat.lt_succ_self _)
  simpa [Extent] using hfound'

theorem Piece.Fits.congr {s : Piece} (h : s.Fits (d ++ f))
    (htags : startTagsEnd g (s.text ++ d) = true)
    (hclosed : ∀ tag inner close, s ≠ .block tag inner close false) : s.Fits (d ++ g) := by
  cases s with
  | comment body closed =>
    cases closed with
    | true => exact Template.Closes.congr h _
    | false =>
      have hnil : d ++ f = [] := h.1
      obtain ⟨-, rfl⟩ := List.append_eq_nil_iff.mp hnil
      cases hf
  | single tag => exact ⟨h.1.congr _, h.2⟩
  | block tag inner close closed =>
    obtain ⟨htag, hsc, hext⟩ := h
    cases closed with
    | false => exact absurd rfl (hclosed tag inner close)
    | true =>
      have hname : '<' ∉ tag.name := fun hmem =>
        (Lexed.isNameChar_cases (htag.name.chars _ hmem)).2.2.2.1 rfl
      refine ⟨htag.congr _, hsc, hext.congr hf hg hname ?_⟩
      rw [Piece.text_block, List.append_assoc, List.append_assoc] at htags
      exact startTagsEnd_of_append htags
  | angle =>
    obtain ⟨hcomment, htag⟩ := h
    exact ⟨after?_eq_none_congr hf hg (p := ("!--" : String).toList) (by decide) hcomment,
      not_fits_congr htags htag⟩

end front

theorem exists_rest_of_piece {p w : Text} {s : Piece} (htag : tag.Fits r) (hfits : s.Fits w)
    (hs : '<' :: (d ++ (tag.text ++ r)) = s.text ++ w)
    (hb : b ∈ s.blocks (offset + p.size) ++ blocksAt (offset + p.size + s.text.size) w)
    (hstart : b.content.start = offset + (p ++ '<' :: d).size + tag.text.size) :
    ∃ a : Text, '<' :: d = s.text ++ a ∧ w = a ++ (tag.text ++ r) ∧
      b ∈ blocksAt (offset + p.size + s.text.size) w := by
  have htext : (p ++ '<' :: d) ++ (tag.text ++ r) = p ++ (s.text ++ w) := by
    rw [List.append_assoc, List.cons_append, hs]
  have hsize := congrArg Text.size htext
  simp only [Text.size_append] at hsize hstart
  rcases List.mem_append.mp hb with hown | hmore
  · exfalso
    obtain ⟨tag', inner, close, closed, rfl, rfl⟩ := Piece.exists_of_mem_blocks hown
    have hend : p ++ (tag'.text ++ (inner ++ (close ++ w))) = (p ++ '<' :: d) ++ (tag.text ++ r) := by
      rw [htext]
      simp [Piece.text_block]
    have hp := TagShape.start_unique hfits.1 htag hend (by
      simp only [Piece.text_block, Text.size_append] at hsize ⊢
      simp only at hstart
      omega)
    have hlen := congrArg List.length hp
    simp at hlen
  · obtain ⟨a, tag', g', rfl, htag', -, hstart', -⟩ := exists_tag_of_mem hmore
    have hend : (p ++ (s.text ++ a)) ++ (tag'.text ++ g') = (p ++ '<' :: d) ++ (tag.text ++ r) := by
      rw [htext]
      simp
    have hp := TagShape.start_unique htag' htag hend (by
      simp only [Text.size_append] at hsize ⊢
      omega)
    have ha : '<' :: d = s.text ++ a := (List.append_cancel_left hp).symm
    refine ⟨a, ha, ?_, hmore⟩
    rw [← List.cons_append, ha, List.append_assoc] at hs
    exact (List.append_cancel_left hs).symm

/-- What the scan finds in front of a block whose start tag it comes to: the same blocks, whatever follows
that start tag. -/
theorem blocksAt_front {r' : Text} {fuel : Nat} (htag : tag.Fits r)
    (htags : startTagsEnd (tag.text ++ r') u = true)
    (hb : b ∈ blocksAt offset (u ++ (tag.text ++ r)))
    (hstart : b.content.start = offset + u.size + tag.text.size)
    (hfuel : (u ++ (tag.text ++ r)).length < fuel)
    (hclosed : ∀ e ∈ (scanBlocks fuel offset (u ++ (tag.text ++ r))).2, ∀ name,
      e.kind = .unclosedBlock name → offset + u.size < e.span.start) :
    ∃ before,
      blocksAt offset (u ++ (tag.text ++ r)) = before ++ blocksAt (offset + u.size) (tag.text ++ r) ∧
      blocksAt offset (u ++ (tag.text ++ r')) =
        before ++ blocksAt (offset + u.size) (tag.text ++ r') ∧
      ∀ c ∈ before, c.close.stop ≤ offset + u.size := by
  induction fuel generalizing u offset with
  | zero => omega
  | succ fuel ih =>
    obtain hu | ⟨p, d, rfl, hp⟩ := angle_cases u
    · exact ⟨[], blocksAt_skip hu offset _, blocksAt_skip hu offset _, by simp⟩
    · obtain ⟨s, w, hs, hfits⟩ := Piece.exists_piece (d ++ (tag.text ++ r))
      have htext : (p ++ '<' :: d) ++ (tag.text ++ r) = p ++ (s.text ++ w) := by
        rw [List.append_assoc, List.cons_append, hs]
      rw [htext] at hb hfuel hclosed ⊢
      rw [blocksAt_piece hp hfits] at hb ⊢
      obtain ⟨a, ha, rfl, hmore⟩ := exists_rest_of_piece htag hfits hs hb hstart
      have herrors := (scanBlocks_piece hp hfits fuel offset).2
      have hsize : (p ++ '<' :: d).size = p.size + s.text.size + a.size := by
        rw [Text.size_append, ha, Text.size_append, Nat.add_assoc]
      have hopen : ∀ tag' inner close, s ≠ .block tag' inner close false := by
        rintro tag' inner close rfl
        obtain ⟨-, -, rfl, -⟩ := hfits
        have hlt := hclosed _ (herrors _ (List.mem_append_left _ (List.mem_singleton.mpr rfl))) _ rfl
        simp only [Span.empty, hsize, Piece.text_block, List.append_nil, Text.size_append] at hlt
        omega
      have htags' : startTagsEnd (tag.text ++ r') (s.text ++ a) = true :=
        ha ▸ startTagsEnd_of_append htags
      have hfits' := hfits.congr rfl rfl htags' hopen
      have htext' : (p ++ '<' :: d) ++ (tag.text ++ r') = p ++ (s.text ++ (a ++ (tag.text ++ r'))) := by
        rw [ha]
        simp
      have hoffset : offset + (p ++ '<' :: d).size = offset + p.size + s.text.size + a.size := by omega
      obtain ⟨before, h, h', hbefore⟩ := ih (startTagsEnd_of_append htags') hmore
        (by omega)
        (by
          have hpos := List.length_pos_iff.mpr s.text_ne_nil
          simp only [List.length_append] at hfuel ⊢
          omega)
        (fun e he name hkind => by
          have := hclosed e (herrors e (List.mem_append_right _ he)) name hkind
          omega)
      refine ⟨s.blocks (offset + p.size) ++ before, ?_, ?_, ?_⟩
      · rw [h, hoffset, List.append_assoc]
      · rw [htext', blocksAt_piece hp hfits', h', hoffset, List.append_assoc]
      · intro c hc
        rw [hoffset]
        rcases List.mem_append.mp hc with hc | hc
        · obtain ⟨_, _, _, _, -, rfl⟩ := Piece.exists_of_mem_blocks hc
          simp only
          omega
        · exact hbefore c hc

end SfcTsx.Markup
