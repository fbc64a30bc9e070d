import SfcTsx.Proofs.View.Edits

namespace SfcTsx.View

open Markup Operation

variable {o : Operation} {d : Directive} {os os' : List Operation} {ofComponent : Bool}
  {close : Span}

section
variable {source : Text} {p : Prop} {tag : Tag}

theorem Own.nil : Own source p tag [] := ⟨.nil, by simp, by simp⟩

theorem Own.append (h : Own source p tag os) (h' : Own source p tag os')
    (hc : ∀ o ∈ os, ∀ o' ∈ os', Compatible p o o') : Own source p tag (os ++ os') :=
  ⟨h.sound.append h'.sound hc, fun o ho => (List.mem_append.mp ho).elim (h.yields o) (h'.yields o),
    fun o ho => (List.mem_append.mp ho).elim (h.beside o) (h'.beside o)⟩

theorem Own.cons (h : Own source p tag [o]) (h' : Own source p tag os)
    (hc : ∀ o' ∈ [o], ∀ o'' ∈ os, Compatible p o' o'') :
    Own source p tag (o :: os) := h.append h' hc

theorem Still.compatible_of_apart {o' : Operation} {x y : Nat} (h : o.Still)
    (hc : ∀ r ∈ o.covers, x ≤ r.start ∧ r.stop ≤ y) (ho' : ∀ n ∈ o'.offsets, n ≤ x ∨ y ≤ n) :
    Compatible p o o' := by
  refine h.compatible fun _ r hr n hn => ?_
  have := hc r hr
  have := ho' n hn
  omega

/-- Edits that neither replace nor move a text. -/
def Bare (os : List Operation) : Prop := ∀ o ∈ os, o.Still ∧ o.covers = []

theorem bare_single (h : o.Still) (hc : o.covers = []) : Bare [o] := by
  intro o' ho'
  obtain rfl := List.mem_singleton.mp ho'
  exact ⟨h, hc⟩

theorem Bare.append (h : Bare os) (h' : Bare os') : Bare (os ++ os') :=
  fun o ho => (List.mem_append.mp ho).elim (h o) (h' o)

theorem Bare.compatible (h : Bare os) (ho : o ∈ os) (o' : Operation) : Compatible p o o' :=
  (h o ho).1.compatible_of_covers (h o ho).2

theorem Bare.compatible_move (h : Bare os) (ho : o ∈ os) (s e d : Nat) :
    Compatible p (.moveRange s e d) o := by
  obtain ⟨hstill, hc⟩ := h o ho
  refine ⟨?_, fun _ r hr => by simp [Operation.covers] at hr⟩
  cases o with
  | overwrite s e t => simp [Operation.covers] at hc
  | _ => trivial

theorem Bare.pairwise_append (h : Bare os) (h' : os'.Pairwise (Compatible p)) :
    (os ++ os').Pairwise (Compatible p) :=
  List.pairwise_append.mpr ⟨List.pairwise_of_forall_mem_list fun _ ho o' _ => h.compatible ho o', h',
    fun _ ho o' _ => h.compatible ho o'⟩

theorem Bare.own (h : Bare os) (hw : ∀ o ∈ os, o.Within tag.span.start tag.span.stop)
    (hat : ∀ o ∈ os, ∀ n ∈ o.offsets, source.isBoundary n = true)
    (hbeside : ∀ o ∈ os, o.Beside tag.inner.start tag.inner.stop) : Own source p tag os := by
  refine ⟨⟨hw, hat, by simpa using h.pairwise_append .nil⟩, ?_, hbeside⟩
  intro o ho c _
  obtain ⟨hstill, hc⟩ := h o ho
  exact ⟨by simp [hc], by cases o <;> trivial⟩

theorem editAttr_covers {a : Attr} (ho : o ∈ editAttr source ofComponent a)
    (hplaced : Placed source a) (hc : o.covers ≠ []) : ∃ d, a = .directive d := by
  cases a with
  | plain a => exact absurd ((quoteAttribute_successive hplaced).2 o ho) hc
  | directive d => exact ⟨d, rfl⟩

theorem editAttr_notStructural (ho : o ∈ editAttr source ofComponent (.directive d)) :
    isStructural d = false ∧ (ofComponent = true → d.name ≠ "slot") := by
  simp only [editAttr] at ho
  split at ho
  · cases ho
  next hs =>
    refine ⟨by simpa using hs, ?_⟩
    rintro rfl hname
    simp [hname] at ho

theorem mem_fillCondition (ho : o ∈ fillCondition d) :
    lacksCondition d = true ∧ ∃ t, o = .overwrite d.nameSpan.start d.nameSpan.stop t := by
  unfold fillCondition at ho
  split at ho
  next hlacks => exact ⟨hlacks, _, List.mem_singleton.mp ho⟩
  next => cases ho

section
variable (h : TagPlaced source tag)
include h

theorem TagPlaced.editAttr_tended (ofComponent : Bool) {a : Attr} (ha : a ∈ tag.attrs) :
    Tended source p a.span (editAttr source ofComponent a) := by
  have hplaced := (h.placed a ha).1
  have hspace := (h.spaceStart ha).2
  cases a with
  | plain a => exact (quoteAttribute_successive hplaced).1.tended
  | directive d =>
    have hplaced : DirectivePlaced source d := hplaced
    simp only [editAttr]
    split
    · exact .nil
    · split
      · split
        · exact .nil
        · exact (hplaced.removeAttr_tended hspace [] (by simp [SpansWithin])).1
      · exact hplaced.editDirective_tended hspace ofComponent

theorem TagPlaced.removeStructural_tended (hd : d ∈ tag.directives) :
    Tended source p d.span (removeStructural source d) :=
  (h.directive hd).1.removeStructural_tended (h.spaceStart (mem_attrs_of_directive hd)).2

theorem TagPlaced.fillCondition_yields (hd : d ∈ tag.directives) (ho : o ∈ fillCondition d) :
    Yields tag o := by
  rintro c ⟨d', hd', -, hc⟩
  obtain ⟨hlacks, t, rfl⟩ := mem_fillCondition ho
  refine ⟨fun r hr => ?_, trivial⟩
  obtain rfl : r = ⟨d.nameSpan.start, d.nameSpan.stop⟩ := by simpa [Operation.covers] using hr
  by_cases hdd : d' = d
  · subst hdd
    rw [keptSpans_of_lacksCondition hlacks] at hc
    obtain rfl := List.mem_singleton.mp hc
    exact ⟨.inl (Nat.le_refl _), .inr (Nat.le_refl _)⟩
  · have hattr := (h.directive hd).1.attr
    have := hattr.start_eq
    have := hattr.name_le
    obtain ⟨hp, h₁, h₂⟩ := (h.directive hd').1.keptSpans_within c hc
    have := hp.lt
    have hap := h.apart (mem_attrs_of_directive hd') (mem_attrs_of_directive hd)
      fun heq => hdd (Attr.directive.inj heq)
    simp only [Attr.span] at hap ⊢
    omega

theorem TagPlaced.removeStructural_yields (hd : d ∈ tag.directives)
    (ho : o ∈ removeStructural source d) : Yields tag o := by
  rcases List.mem_append.mp ho with ho | ho
  · exact h.fillCondition_yields hd ho
  · obtain ⟨s, e, rfl, -⟩ := mem_removeExcept ho
    exact fun c _ => ⟨by simp [Operation.covers], trivial⟩

theorem TagPlaced.attrs_nodup : tag.attrs.Pairwise (· ≠ ·) := by
  refine h.order.imp_of_mem fun ha _ hle heq => ?_
  subst heq
  have := (h.attr_span ha).lt
  omega

theorem TagPlaced.directives_nodup : tag.directives.Pairwise (· ≠ ·) := by
  refine List.Pairwise.filterMap _ ?_ h.attrs_nodup
  intro a b hne d hd d' hd' heq
  cases a <;> cases b <;> simp_all [Attr.directive?]

theorem TagPlaced.editAttrs_own (ofComponent : Bool)
    (htidy : p → ∀ d ∈ tag.directives, Tidy source d) :
    Own source p tag (editAttrs source ofComponent tag) := by
  have hstruct : ∀ d ∈ tag.directives.filter isStructural, ∀ o ∈ removeStructural source d,
      Local source (Attr.directive d).span o :=
    fun d hd => (h.removeStructural_tended (p := p) (List.mem_of_mem_filter hd)).mem
  have hattr : ∀ a ∈ tag.attrs, ∀ o ∈ editAttr source ofComponent a, Local source a.span o :=
    fun a ha => (h.editAttr_tended (p := p) ofComponent ha).mem
  have hlocal : ∀ o ∈ editAttrs source ofComponent tag, ∃ a ∈ tag.attrs, Local source a.span o := by
    intro o ho
    rcases List.mem_append.mp ho with ho | ho
    · obtain ⟨d, hd, ho⟩ := List.mem_flatMap.mp ho
      exact ⟨_, mem_attrs_of_directive (List.mem_of_mem_filter hd), hstruct d hd o ho⟩
    · obtain ⟨a, ha, ho⟩ := List.mem_flatMap.mp ho
      exact ⟨a, ha, hattr a ha o ho⟩
  refine ⟨⟨?_, ?_, ?_⟩, ?_, ?_⟩
  · intro o ho
    obtain ⟨a, ha, hl⟩ := hlocal o ho
    exact (hl.within h ha).1
  · intro o ho
    obtain ⟨a, ha, hl⟩ := hlocal o ho
    exact hl.boundary
  · refine List.pairwise_append.mpr ⟨?_, ?_, ?_⟩
    · refine List.pairwise_flatMap.mpr ⟨fun d hd =>
        (h.removeStructural_tended (List.mem_of_mem_filter hd)).compatible, ?_⟩
      refine (h.directives_nodup.filter _).imp_of_mem fun {d d'} hd hd' hne o ho o' ho' => ?_
      have hmem := List.mem_of_mem_filter hd
      exact Local.compatible h (mem_attrs_of_directive hmem)
        (mem_attrs_of_directive (List.mem_of_mem_filter hd')) (fun heq => hne (Attr.directive.inj heq))
        (hstruct d hd o ho) (hstruct d' hd' o' ho') fun ht _ => ⟨d, rfl, htidy ht d hmem⟩
    · refine List.pairwise_flatMap.mpr ⟨fun a ha => (h.editAttr_tended ofComponent ha).compatible, ?_⟩
      refine h.attrs_nodup.imp_of_mem fun {a b} ha hb hne o ho o' ho' => ?_
      refine Local.compatible h ha hb hne (hattr a ha o ho) (hattr b hb o' ho') fun ht hc => ?_
      obtain ⟨d, rfl⟩ := editAttr_covers ho (h.placed a ha).1 hc
      exact ⟨d, rfl, htidy ht d (List.mem_filterMap.mpr ⟨_, ha, rfl⟩)⟩
    · intro o ho o' ho'
      obtain ⟨d, hd, ho⟩ := List.mem_flatMap.mp ho
      obtain ⟨a, ha, ho'⟩ := List.mem_flatMap.mp ho'
      have hmem := List.mem_of_mem_filter hd
      refine Local.compatible h (mem_attrs_of_directive hmem) ha ?_ (hstruct d hd o ho)
        (hattr a ha o' ho') fun ht _ => ⟨d, rfl, htidy ht d hmem⟩
      rintro rfl
      exact absurd (List.mem_filter.mp hd).2 (by simp [(editAttr_notStructural ho').1])
  · intro o ho
    rcases List.mem_append.mp ho with ho | ho
    · obtain ⟨d, hd, ho⟩ := List.mem_flatMap.mp ho
      exact h.removeStructural_yields (List.mem_of_mem_filter hd) ho
    · obtain ⟨a, ha, ho⟩ := List.mem_flatMap.mp ho
      refine Local.yields h ha (hattr a ha o ho) ?_
      rintro d rfl
      exact (editAttr_notStructural ho).1
  · intro o ho
    obtain ⟨a, ha, hl⟩ := hlocal o ho
    exact (hl.within h ha).2

theorem TagPlaced.bracket_at : tag.nameSpan.stop ≤ tag.startTag.stop - 1 ∧
    source.isBoundary (tag.startTag.stop - 1) = true ∧ source.isBoundary tag.startTag.stop = true := by
  have hlt := h.name_lt
  obtain ⟨rest, hat⟩ := h.bracket
  have hstop : tag.startTag.stop - 1 + 1 = tag.startTag.stop := by omega
  have hskip : source.At (tag.startTag.stop - 1 + Text.size ['>']) rest := hat.skip (s := ['>'])
  have hone : Text.size ['>'] = 1 := rfl
  rw [hone, hstop] at hskip
  exact ⟨by omega, hat.isBoundary, hskip.isBoundary⟩

theorem TagPlaced.closing (hc : tag.closeTag = some close) :
    tag.startTag.stop ≤ close.start ∧ tag.inner.stop = close.start ∧ close.stop = tag.span.stop ∧
      close.start + 2 + Text.size tag.name.toList < close.stop ∧
      source.isBoundary close.start = true ∧ source.isBoundary (close.start + 2) = true ∧
      source.isBoundary (close.start + 2 + Text.size tag.name.toList) = true := by
  obtain ⟨hle, hstop, blank, rest, hsize, hat⟩ := h.close close hc
  have hbehind : source.At close.start (['<', '/'] ++ (tag.name.toList ++ (blank ++ '>' :: rest))) := by
    simpa [closingText] using hat
  have htwo : Text.size ['<', '/'] = 2 := rfl
  have hname := hbehind.skip
  rw [htwo] at hname
  rw [Markup.size_closingText] at hsize
  refine ⟨hle, ?_, hstop, by omega, hat.isBoundary, hname.isBoundary, hname.skip.isBoundary⟩
  simp only [Tag.inner, hc]
  omega

theorem TagPlaced.own_single (hw : o.Within tag.span.start tag.span.stop) (hstill : o.Still)
    (hat : ∀ n ∈ o.offsets, source.isBoundary n = true)
    (hbeside : o.Beside tag.inner.start tag.inner.stop)
    (hcovers : ∀ r ∈ o.covers, r.stop ≤ tag.nameSpan.stop ∨ tag.startTag.stop ≤ r.start) :
    Own source p tag [o] := by
  refine ⟨⟨?_, ?_, List.pairwise_singleton _ _⟩, ?_, ?_⟩
  · simpa using hw
  · simpa using hat
  · intro o' ho' c hc
    obtain rfl := List.mem_singleton.mp ho'
    obtain ⟨hp, h₁, h₂⟩ := h.kept hc
    have := hp.lt
    refine ⟨fun r hr => ?_, by cases o' <;> trivial⟩
    have := hcovers r hr
    omega
  · simpa using hbeside

theorem TagPlaced.own_insert {n : Nat} (hbare : Bare [o]) (ho : o.offsets = [n])
    (hn : tag.span.start < n ∧ n < tag.span.stop) (hat : source.isBoundary n = true)
    (hside : n ≤ tag.inner.start ∨ tag.inner.stop ≤ n) : Own source p tag [o] := by
  obtain ⟨hstill, hc⟩ := hbare o (by simp)
  refine h.own_single (hstill.within ?_) hstill ?_ ⟨?_, ?_⟩ (by simp [hc])
  · simpa [ho] using hn
  · simpa [ho] using hat
  · simpa [ho] using hside
  · cases o with
    | overwrite s e t => simp [Operation.covers] at hc
    | moveRange s e d => exact hstill.elim
    | _ => trivial

theorem TagPlaced.renameClosing_own (env : Setting) (name : String) :
    Own source p tag (renameClosing env tag name) ∧
      ∀ o ∈ renameClosing env tag name, o.Still ∧ ∀ n ∈ o.offsets, tag.startTag.stop ≤ n := by
  unfold renameClosing
  split
  next => exact ⟨.nil, by simp⟩
  next close hclose =>
    obtain ⟨hle, hinner, hstop, hsize, -, hname, hend⟩ := h.closing hclose
    have hspan := h.span.lt
    have hopen := h.stop_le
    have hfirst := h.name_start
    have hlast := h.name_stop
    have hbracket := h.bracket_at
    obtain ⟨c, n, rest, htext, -, -⟩ := h.name_text
    have hpos : 0 < Text.size tag.name.toList := by
      rw [htext]
      exact Text.size_pos (by simp)
    dsimp only
    split
    · refine ⟨h.own_single ?_ ?_ ?_ ?_ ?_, ?_⟩
      · simp only [Within]
        omega
      · simp only [Still]
        omega
      · simpa [Operation.offsets] using ⟨hname, hend⟩
      · simp only [Beside, Operation.offsets, List.mem_cons, List.not_mem_nil, or_false, forall_eq_or_imp,
          forall_eq]
        omega
      · simp only [Operation.covers, List.mem_singleton, forall_eq]
        omega
      · simp only [forall_eq, Still, Operation.offsets, List.mem_cons, List.not_mem_nil, or_false,
          forall_eq_or_imp]
        omega
    · exact ⟨.nil, by simp⟩

theorem TagPlaced.renameTags_own (env : Setting) (name : String) :
    Own source p tag (renameTags env tag name) ∧
      ∀ o ∈ renameTags env tag name, o.Still ∧
        ((∀ n ∈ o.offsets, n ≤ tag.nameSpan.stop) ∨ ∀ n ∈ o.offsets, tag.startTag.stop ≤ n) := by
  obtain ⟨hclosing, hoffsets⟩ := h.renameClosing_own (p := p) env name
  have hspan := h.span
  have hstart := h.name_start
  have hlt := h.name_lt
  have hle := h.stop_le
  have hstop := h.name_stop
  have hinner := inner_start tag
  obtain ⟨c, n, rest, htext, -, hat⟩ := h.name_text
  have hpos : 0 < Text.size tag.name.toList := by
    rw [htext]
    exact Text.size_pos (by simp)
  have hend := hat.skip.isBoundary
  rw [← hstop] at hend
  unfold renameTags
  split
  · exact ⟨.nil, by simp⟩
  · have hopening : Own source p tag
        [.overwrite tag.nameSpan.start tag.nameSpan.stop name.toList] := by
      refine h.own_single ?_ ?_ ?_ ?_ ?_
      · simp only [Within]
        omega
      · simp only [Still]
        omega
      · simpa [Operation.offsets] using ⟨hat.isBoundary, hend⟩
      · simp only [Beside, Operation.offsets, List.mem_cons, List.not_mem_nil, or_false, forall_eq_or_imp,
          forall_eq]
        omega
      · simp [Operation.covers]
    refine ⟨hopening.cons hclosing ?_, ?_⟩
    · intro o ho o' ho'
      obtain rfl := List.mem_singleton.mp ho
      refine Still.compatible_of_apart (x := 0) (y := tag.nameSpan.stop) ?_ ?_ ?_
      · simp only [Still]
        omega
      · simp [Operation.covers]
      · intro n hn
        have := (hoffsets o' ho').2 n hn
        omega
    · intro o ho
      rcases List.mem_cons.mp ho with rfl | ho
      · simp only [Still, Operation.offsets, List.mem_cons, List.not_mem_nil, or_false, forall_eq_or_imp,
          forall_eq]
        omega
      · exact ⟨(hoffsets o ho).1, .inr (hoffsets o ho).2⟩

theorem TagPlaced.closeTags_own (env : Setting) (name : String) :
    Own source p tag (closeTags env tag name) ∧
      ∀ o ∈ closeTags env tag name, o.Still ∧ o.covers = [] ∧
        ∀ n ∈ o.offsets, tag.startTag.stop - 1 = n ∨ tag.span.stop = n := by
  have hinsert : ∀ (n : Nat) (text : Text), tag.startTag.stop - 1 = n ∨ tag.span.stop = n →
      source.isBoundary n = true → n ≤ tag.inner.start ∨ tag.inner.stop ≤ n →
      Own source p tag [.insertLeft n text] ∧ ∀ o ∈ [Operation.insertLeft n text],
        o.Still ∧ o.covers = [] ∧ ∀ n ∈ o.offsets, tag.startTag.stop - 1 = n ∨ tag.span.stop = n := by
    intro n text hn hat hside
    have := h.bracket_at.1
    have := h.name_start
    have := h.name_stop
    have := h.stop_le
    refine ⟨h.own_single ?_ trivial ?_ ?_ ?_, ?_⟩
    · simp only [Within]
      omega
    · simpa [Operation.offsets] using hat
    · simpa [Beside, Operation.offsets] using hside
    · simp [Operation.covers]
    · simpa [Still, Operation.covers, Operation.offsets] using hn
  unfold closeTags
  dsimp only
  split
  · split
    · refine hinsert _ _ (.inl rfl) h.bracket_at.2.1 (.inl ?_)
      rw [inner_start]
      exact Nat.sub_le _ _
    · exact ⟨.nil, by simp⟩
  · split
    · exact hinsert _ _ (.inr rfl) h.stop_at (.inr h.inner.2.2)
    · exact ⟨.nil, by simp⟩

theorem TagPlaced.mem_editAttrs (ho : o ∈ editAttrs source ofComponent tag) :
    ∃ a ∈ tag.attrs, Local source a.span o ∧
      ∀ d, a = .directive d → ofComponent = true → d.name ≠ "slot" := by
  rcases List.mem_append.mp ho with ho | ho
  · obtain ⟨d, hd, ho⟩ := List.mem_flatMap.mp ho
    obtain ⟨hd, hs⟩ := List.mem_filter.mp hd
    refine ⟨_, mem_attrs_of_directive hd, (h.removeStructural_tended (p := True) hd).mem o ho, ?_⟩
    rintro d' heq - hname
    obtain rfl := Attr.directive.inj heq
    simp [isStructural, hname] at hs
  · obtain ⟨a, ha, ho⟩ := List.mem_flatMap.mp ho
    refine ⟨a, ha, (h.editAttr_tended (p := True) ofComponent ha).mem o ho, ?_⟩
    rintro d rfl
    exact (editAttr_notStructural ho).2

theorem TagPlaced.renderTags_own (env : Setting) (henv : env.source = source) (ofComponent : Bool)
    (htidy : p → ∀ d ∈ tag.directives, Tidy source d) :
    Own source p tag (renderTags env ofComponent tag) := by
  obtain ⟨hrename, hname⟩ := h.renameTags_own (p := p) env (outputName tag.name)
  obtain ⟨hclose, hend⟩ := h.closeTags_own (p := p) env (outputName tag.name)
  have hbracket := h.bracket_at.1
  have hle := h.stop_le
  unfold renderTags
  rw [henv]
  -- what is replaced in attributes lies between the name and the bracket
  have hattrs : ∀ o ∈ editAttrs source ofComponent tag, o.Still ∧
      ∀ r ∈ o.covers, tag.nameSpan.stop ≤ r.start ∧ r.stop ≤ tag.startTag.stop - 1 := by
    intro o ho
    obtain ⟨a, ha, hl, -⟩ := h.mem_editAttrs ho
    have := (h.placed a ha).2
    refine ⟨hl.still, fun r hr => ?_⟩
    have := hl.covers r hr
    omega
  refine ((h.editAttrs_own ofComponent htidy).append hrename ?_).append hclose ?_
  · intro o ho o' ho'
    refine Still.compatible_of_apart (hattrs o ho).1 (hattrs o ho).2 fun n hn => ?_
    rcases (hname o' ho').2 with hn' | hn'
    · exact .inl (hn' n hn)
    · have := hn' n hn
      omega
  · intro o ho o' ho'
    obtain ⟨-, -, hn'⟩ := hend o' ho'
    rcases List.mem_append.mp ho with ho | ho
    · refine Still.compatible_of_apart (hattrs o ho).1 (hattrs o ho).2 fun n hn => ?_
      have := hn' n hn
      omega
    · have hw := hrename.sound.within o ho
      obtain ⟨hstill, hside⟩ := hname o ho
      refine hstill.compatible fun _ r hr n hn => ?_
      have hr' := hw.covers r hr
      obtain ⟨h₁, h₂⟩ := mem_offsets_of_covers hr
      have := hn' n hn
      rcases hside with hside | hside
      · have := hside _ h₂
        omega
      · have := hside _ h₁
        omega

theorem TagPlaced.removeAttr_bare (hd : d ∈ tag.directives) (kept : List Span)
    (hkept : SpansWithin source d.span.start d.span.stop kept) :
    Own source p tag (removeAttr source d.span kept) ∧ Bare (removeAttr source d.span kept) := by
  have hmem := mem_attrs_of_directive hd
  obtain ⟨htended, hcovers⟩ := (h.directive hd).1.removeAttr_tended (p := p) (h.spaceStart hmem).2
    kept hkept
  have hbare : Bare (removeAttr source d.span kept) :=
    fun o ho => ⟨(htended.mem o ho).still, hcovers o ho⟩
  refine ⟨hbare.own (fun o ho => ?_) (fun o ho => (htended.mem o ho).boundary) fun o ho => ?_, hbare⟩
  · exact (Local.within h hmem (htended.mem o ho)).1
  · exact (Local.within h hmem (htended.mem o ho)).2

theorem TagPlaced.removeOwnSlot_own (env : Setting) (henv : env.source = source) :
    Own source p tag (removeOwnSlot env tag) ∧ Bare (removeOwnSlot env tag) := by
  unfold removeOwnSlot
  split
  next d hd =>
    rw [henv]
    exact h.removeAttr_bare (directive?_eq_some hd).1 [] (by simp [SpansWithin])
  next => exact ⟨.nil, by simp [Bare]⟩

theorem TagPlaced.wrapOwnSlot_own (env : Setting) (henv : env.source = source)
    (hclose : tag.closeTag = some close) (hd : d ∈ tag.directives) (hslot : d.name = "slot") :
    Own source p tag (wrapOwnSlot env tag close d) ∧
      ∀ o ∈ wrapOwnSlot env tag close d, o.covers = [] ∧
        (o.Still ∨ ∃ s e, o = .moveRange s e tag.inner.start ∧ d.span.start ≤ s ∧ s < e ∧ e ≤ d.span.stop) := by
  obtain ⟨hle, hinner, hstop, hsize, hat, -⟩ := h.closing hclose
  obtain ⟨hplaced, hlo, hhi⟩ := h.directive hd
  have hstart := h.name_start
  have hname := h.name_stop
  have hin := inner_start tag
  have hbracket := h.bracket_at.2.2
  have hspan := hplaced.span.lt
  have hendBare : Bare [Operation.prependRight close.start "</> \x7d\x7d".toList] :=
    bare_single trivial rfl
  have hend : Own source p tag [.prependRight close.start "</> \x7d\x7d".toList] :=
    h.own_insert hendBare rfl (by omega) hat (by omega)
  unfold wrapOwnSlot
  dsimp only
  rw [henv]
  split
  next exp hexp =>
    obtain ⟨hvalue, hexpAt⟩ := hplaced.expression hexp
    have := hvalue.le
    have := hplaced.attr.name_pos
    have hlt := hexpAt.lt
    have hkept : SpansWithin source d.span.start d.span.stop [exp.span] := by
      intro s hs
      obtain rfl := List.mem_singleton.mp hs
      exact ⟨hexpAt, by omega, by omega⟩
    obtain ⟨hremove, hbare⟩ := h.removeAttr_bare (p := p) hd _ hkept
    generalize "\x7b\x7b ".toList ++ slotKey d ++ ": (".toList = opening
    have hopenBare : Bare [Operation.prependRight exp.span.start opening] := bare_single trivial rfl
    have hshutBare : Bare [Operation.insertLeft exp.span.stop ") => <>".toList] := bare_single trivial rfl
    have hopen : Own source p tag [.prependRight exp.span.start opening] :=
      h.own_insert hopenBare rfl (by omega) hexpAt.start_at (by omega)
    have hshut : Own source p tag [.insertLeft exp.span.stop ") => <>".toList] :=
      h.own_insert hshutBare rfl (by omega) hexpAt.stop_at (by omega)
    have hmove : Own source p tag [.moveRange exp.span.start exp.span.stop tag.inner.start] := by
      refine ⟨⟨?_, ?_, List.pairwise_singleton _ _⟩, ?_, ?_⟩
      · simp only [List.mem_singleton, forall_eq, Within]
        omega
      · simpa [Operation.offsets] using ⟨hexpAt.start_at, hexpAt.stop_at, hbracket⟩
      · intro o ho c hc
        obtain rfl := List.mem_singleton.mp ho
        obtain ⟨d', hd', hs, hc'⟩ := hc
        obtain ⟨hp, h₁, h₂⟩ := (h.directive hd').1.keptSpans_within c hc'
        have hdd : Attr.directive d' ≠ .directive d := by
          intro heq
          obtain rfl := Attr.directive.inj heq
          simp [isStructural, hslot] at hs
        have hap := h.apart (mem_attrs_of_directive hd') (mem_attrs_of_directive hd) hdd
        have := (h.directive hd').2.2
        simp only [Attr.span] at hap
        refine ⟨by simp [Operation.covers], ?_⟩
        simp only
        omega
      · simp only [forall_eq, Beside, Operation.offsets, List.mem_cons, List.not_mem_nil, or_false,
          forall_eq_or_imp]
        omega
    have hbefore := hbare.append (hopenBare.append hshutBare)
    have hall := ((hremove.append (hopen.append hshut fun o ho o' _ => hopenBare.compatible ho o')
      fun o ho o' _ => hbare.compatible ho o').append hmove
      fun o ho o' _ => hbefore.compatible ho o').append hend ?_
    · refine ⟨by simpa using hall, ?_⟩
      intro o ho
      rcases List.mem_append.mp ho with ho | ho
      · rcases List.mem_append.mp ho with ho | ho
        · exact ⟨(hbare o ho).2, .inl (hbare o ho).1⟩
        · simp only [List.mem_cons, List.not_mem_nil, or_false] at ho
          rcases ho with rfl | rfl | rfl
          · exact ⟨rfl, .inl trivial⟩
          · exact ⟨rfl, .inl trivial⟩
          · exact ⟨rfl, .inr ⟨_, _, rfl, by omega, by omega, by omega⟩⟩
      · exact ⟨(hendBare o ho).2, .inl (hendBare o ho).1⟩
    · intro o ho o' ho'
      rcases List.mem_append.mp ho with ho | ho
      · exact hbefore.compatible ho o'
      · obtain rfl := List.mem_singleton.mp ho
        exact hendBare.compatible_move ho' _ _ _
  next =>
    obtain ⟨hremove, hbare⟩ := h.removeAttr_bare (p := p) hd [] (by simp [SpansWithin])
    generalize "\x7b\x7b ".toList ++ slotKey d ++ ": (".toList ++ ") => <>".toList = opening
    have hopenBare : Bare [Operation.insertLeft tag.inner.start opening] := bare_single trivial rfl
    have hopen : Own source p tag [.insertLeft tag.inner.start opening] :=
      h.own_insert hopenBare rfl (by omega) hbracket (by omega)
    have hbefore := hbare.append hopenBare
    refine ⟨(hremove.append hopen fun o ho o' _ => hbare.compatible ho o').append hend
      fun o ho o' _ => hbefore.compatible ho o', fun o ho => ?_⟩
    obtain ⟨hstill, hc⟩ := hbefore.append hendBare o ho
    exact ⟨hc, .inl hstill⟩

theorem TagPlaced.mem_renderTags {env : Setting} (henv : env.source = source)
    (ho : o ∈ renderTags env ofComponent tag) : o.Still ∧
      (ofComponent = true → ∀ r ∈ o.covers, ∀ d ∈ tag.directives, d.name = "slot" →
        r.stop ≤ d.span.start ∨ d.span.stop ≤ r.start) := by
  unfold renderTags at ho
  rw [henv] at ho
  rcases List.mem_append.mp ho with ho | ho
  · rcases List.mem_append.mp ho with ho | ho
    · obtain ⟨a, ha, hl, hslot⟩ := h.mem_editAttrs ho
      refine ⟨hl.still, fun hc r hr d hd hname => ?_⟩
      have hap : a.span.stop ≤ d.span.start ∨ d.span.stop ≤ a.span.start :=
        h.apart ha (mem_attrs_of_directive hd) fun heq => hslot d heq hc hname
      have := hl.covers r hr
      omega
    · obtain ⟨hstill, hside⟩ := (h.renameTags_own (p := True) env (outputName tag.name)).2 o ho
      refine ⟨hstill, fun _ r hr d hd _ => ?_⟩
      have := (h.directive hd).2
      obtain ⟨h₁, h₂⟩ := mem_offsets_of_covers hr
      rcases hside with hside | hside
      · have := hside _ h₂
        omega
      · have := hside _ h₁
        omega
  · obtain ⟨hstill, hc, -⟩ := (h.closeTags_own (p := True) env (outputName tag.name)).2 o ho
    exact ⟨hstill, by simp [hc]⟩

theorem TagPlaced.wrapOwnSlot_renderTags (env : Setting) (henv : env.source = source)
    (hclose : tag.closeTag = some close) (hd : d ∈ tag.directives) (hslot : d.name = "slot")
    (htidy : p → ∀ d ∈ tag.directives, Tidy source d) :
    Own source p tag (wrapOwnSlot env tag close d ++ renderTags env true tag) := by
  obtain ⟨hwrap, hops⟩ := h.wrapOwnSlot_own (p := p) env henv hclose hd hslot
  have htags := h.renderTags_own env henv true htidy
  refine hwrap.append htags fun o ho o' ho' => ?_
  obtain ⟨hc, hstill | ⟨s, e, rfl, h₁, h₂, h₃⟩⟩ := hops o ho
  · exact hstill.compatible_of_covers hc
  · refine ⟨?_, fun _ r hr => by simp [Operation.covers] at hr⟩
    have hbeside := htags.beside o' ho'
    have hinner := h.inner.2.1
    obtain ⟨hstill, hap⟩ := h.mem_renderTags henv ho'
    cases o' with
    | overwrite s' e' t =>
      have hap := hap rfl ⟨s', e'⟩ (by simp [Operation.covers]) d hd hslot
      have hside : e' ≤ tag.inner.start ∨ tag.inner.stop ≤ s' := hbeside.2
      simp only [Orderly, Apart]
      simp only at hap
      omega
    | moveRange s' e' d' => exact hstill.elim
    | _ => trivial

theorem TagPlaced.removeExcept_bare (kept : List Span)
    (hkept : SpansWithin source tag.nameSpan.stop tag.startTag.stop kept) :
    Own source p tag (removeExcept tag.startTag kept) ∧ Bare (removeExcept tag.startTag kept) := by
  have hbare : Bare (removeExcept tag.startTag kept) := by
    intro o ho
    obtain ⟨s, e, rfl, hlt, -⟩ := mem_removeExcept ho
    exact ⟨Nat.le_of_lt hlt, rfl⟩
  have hfirst := h.start_eq
  have hname := h.name_start
  have hsize := h.name_stop
  have hle := h.stop_le
  have hbracket := h.bracket_at
  have hin := inner_start tag
  have hoffsets : ∀ o ∈ removeExcept tag.startTag kept, ∃ s e, o = .remove s e ∧ s < e ∧
      tag.span.start ≤ s ∧ e ≤ tag.startTag.stop ∧ source.isBoundary s = true ∧
      source.isBoundary e = true := by
    intro o ho
    obtain ⟨s, e, rfl, hlt, hs, he⟩ := mem_removeExcept ho
    have hs' : tag.span.start ≤ s ∧ source.isBoundary s = true := by
      rcases hs with rfl | ⟨k, hk, rfl⟩
      · exact ⟨by omega, hfirst ▸ h.start_at⟩
      · obtain ⟨hp, h₁, h₂⟩ := hkept k hk
        have := hp.lt
        exact ⟨by omega, hp.stop_at⟩
    have he' : e ≤ tag.startTag.stop ∧ source.isBoundary e = true := by
      rcases he with rfl | ⟨k, hk, rfl⟩
      · exact ⟨Nat.le_refl _, hbracket.2.2⟩
      · obtain ⟨hp, h₁, h₂⟩ := hkept k hk
        have := hp.lt
        exact ⟨by omega, hp.start_at⟩
    exact ⟨s, e, rfl, hlt, hs'.1, he'.1, hs'.2, he'.2⟩
  refine ⟨hbare.own ?_ ?_ ?_, hbare⟩
  · intro o ho
    obtain ⟨s, e, rfl, hlt, hs, he, -⟩ := hoffsets o ho
    simp only [Within]
    omega
  · intro o ho
    obtain ⟨s, e, rfl, -, -, -, hs, he⟩ := hoffsets o ho
    simpa [Operation.offsets] using ⟨hs, he⟩
  · intro o ho
    obtain ⟨s, e, rfl, hlt, hs, he, -⟩ := hoffsets o ho
    simp only [Beside, Operation.offsets, List.mem_cons, List.not_mem_nil, or_false, forall_eq_or_imp,
      forall_eq, and_true]
    omega

theorem TagPlaced.fillCondition_own {ds : List Directive} (hds : ds.Sublist tag.directives) :
    Own source p tag (ds.flatMap fillCondition) := by
  have hmem : ∀ d ∈ ds, ∀ o ∈ fillCondition d, Local source (Attr.directive d).span o := by
    intro d hd o ho
    have htended := h.removeStructural_tended (p := True) (hds.subset hd)
    exact htended.mem o (List.mem_append_left _ ho)
  have hlocal : ∀ o ∈ ds.flatMap fillCondition, ∃ d ∈ ds, o ∈ fillCondition d ∧
      Local source (Attr.directive d).span o := by
    intro o ho
    obtain ⟨d, hd, ho⟩ := List.mem_flatMap.mp ho
    exact ⟨d, hd, ho, hmem d hd o ho⟩
  refine ⟨⟨?_, ?_, ?_⟩, ?_, ?_⟩
  · intro o ho
    obtain ⟨d, hd, -, hl⟩ := hlocal o ho
    exact (hl.within h (mem_attrs_of_directive (hds.subset hd))).1
  · intro o ho
    obtain ⟨d, -, -, hl⟩ := hlocal o ho
    exact hl.boundary
  · refine List.pairwise_flatMap.mpr ⟨fun d _ => ?_, ?_⟩
    · unfold fillCondition
      split
      · exact List.pairwise_singleton _ _
      · exact .nil
    · refine (h.directives_nodup.sublist hds).imp_of_mem fun {d d'} hd hd' hne o ho o' ho' => ?_
      refine (hmem d hd o ho).still.compatible fun _ r hr n hn => ?_
      have hr := (hmem d hd o ho).covers r hr
      obtain ⟨-, t, rfl⟩ := mem_fillCondition ho'
      have hap := h.apart (mem_attrs_of_directive (hds.subset hd)) (mem_attrs_of_directive (hds.subset hd'))
        fun heq => hne (Attr.directive.inj heq)
      have hattr := (h.directive (hds.subset hd')).1.attr
      have := hattr.start_eq
      have := hattr.name_le
      have := hattr.name_pos
      simp only [Attr.span] at hap hr
      obtain rfl | rfl : n = d'.nameSpan.start ∨ n = d'.nameSpan.stop := by
        simpa [Operation.offsets] using hn
      · omega
      · omega
  · intro o ho
    obtain ⟨d, hd, hod, -⟩ := hlocal o ho
    exact h.fillCondition_yields (hds.subset hd) hod
  · intro o ho
    obtain ⟨d, hd, -, hl⟩ := hlocal o ho
    exact (hl.within h (mem_attrs_of_directive (hds.subset hd))).2

theorem TagPlaced.removeTags_own :
    Own source p tag (removeTags tag) ∧ ∀ o ∈ removeTags tag, o.Still := by
  have hstruct : (tag.directives.filter isStructural).Sublist tag.directives := List.filter_sublist
  have hfill := h.fillCondition_own (p := p) hstruct
  have hfilled : ∀ o ∈ (tag.directives.filter isStructural).flatMap fillCondition, o.Still ∧
      ∀ r ∈ o.covers, tag.nameSpan.stop ≤ r.start ∧ r.stop ≤ tag.startTag.stop := by
    intro o ho
    obtain ⟨d, hd, ho⟩ := List.mem_flatMap.mp ho
    have htended := h.removeStructural_tended (p := True) (hstruct.subset hd)
    have hl := htended.mem o (List.mem_append_left _ ho)
    have := (h.directive (hstruct.subset hd)).2
    refine ⟨hl.still, fun r hr => ?_⟩
    have := hl.covers r hr
    omega
  have hkept : ∀ c ∈ (tag.directives.filter isStructural).flatMap keptSpans, Kept tag c := by
    intro c hc
    obtain ⟨d, hd, hc⟩ := List.mem_flatMap.mp hc
    obtain ⟨hd, hs⟩ := List.mem_filter.mp hd
    exact ⟨d, hd, hs, hc⟩
  obtain ⟨hremove, hbare⟩ := h.removeExcept_bare (p := p)
    ((tag.directives.filter isStructural).flatMap keptSpans) (by
      intro c hc
      obtain ⟨hp, h₁, h₂⟩ := h.kept (hkept c hc)
      exact ⟨hp, h₁, by omega⟩)
  have hcloseBare : Bare (tag.closeTag.toList.flatMap removeSpan) := by
    intro o ho
    obtain ⟨close, hclose, ho⟩ := List.mem_flatMap.mp ho
    obtain rfl := List.mem_singleton.mp ho
    obtain ⟨-, -, -, hlt, -⟩ := h.closing (Option.mem_toList.mp hclose)
    exact ⟨by simp only [Still]; omega, rfl⟩
  have hclosing : ∀ o ∈ tag.closeTag.toList.flatMap removeSpan, ∃ close, tag.closeTag = some close ∧
      o = .remove close.start close.stop := by
    intro o ho
    obtain ⟨close, hclose, ho⟩ := List.mem_flatMap.mp ho
    exact ⟨close, Option.mem_toList.mp hclose, List.mem_singleton.mp ho⟩
  have hlt := h.name_lt
  have hle := h.stop_le
  have hfirst := h.start_eq
  have hname := h.name_start
  have hsize := h.name_stop
  have hclose : Own source p tag (tag.closeTag.toList.flatMap removeSpan) := by
    refine hcloseBare.own (fun o ho => ?_) (fun o ho => ?_) fun o ho => ?_
    · obtain ⟨close, hclose, rfl⟩ := hclosing o ho
      obtain ⟨h₁, -, h₂, h₃, -⟩ := h.closing hclose
      simp only [Within]
      omega
    · obtain ⟨close, hclose, rfl⟩ := hclosing o ho
      obtain ⟨-, -, h₂, -, hat, -⟩ := h.closing hclose
      simpa [Operation.offsets, h₂] using ⟨hat, h.stop_at⟩
    · obtain ⟨close, hclose, rfl⟩ := hclosing o ho
      obtain ⟨-, h₁, h₂, h₃, -⟩ := h.closing hclose
      simp only [Beside, Operation.offsets, List.mem_cons, List.not_mem_nil, or_false, forall_eq_or_imp,
        forall_eq, and_true]
      omega
  refine ⟨(hfill.append hremove fun o ho o' ho' => ?_).append hclose fun o ho o' ho' => ?_, ?_⟩
  · -- what is put in place of a condition begins and ends where something is kept
    obtain ⟨hstill, hcovers⟩ := hfilled o ho
    refine hstill.compatible fun _ r hr n hn => ?_
    have hr' := hcovers r hr
    have hyields := fun c hc => (hfill.yields o ho c (hkept c hc)).1 r hr
    obtain ⟨s, e, rfl, -, hs, he⟩ := mem_removeExcept ho'
    obtain rfl | rfl : n = s ∨ n = e := by simpa [Operation.offsets] using hn
    · rcases hs with rfl | ⟨c, hc, rfl⟩
      · omega
      · have := hyields c hc
        omega
    · rcases he with rfl | ⟨c, hc, rfl⟩
      · omega
      · have := hyields c hc
        omega
  · rcases List.mem_append.mp ho with ho | ho
    · obtain ⟨hstill, hcovers⟩ := hfilled o ho
      refine Still.compatible_of_apart hstill hcovers fun n hn => ?_
      obtain ⟨close, hclose, rfl⟩ := hclosing o' ho'
      obtain ⟨h₁, -, h₂, h₃, -⟩ := h.closing hclose
      obtain rfl | rfl : n = close.start ∨ n = close.stop := by simpa [Operation.offsets] using hn
      · omega
      · omega
    · exact hbare.compatible ho o'
  · intro o ho
    rcases List.mem_append.mp ho with ho | ho
    · rcases List.mem_append.mp ho with ho | ho
      · exact (hfilled o ho).1
      · exact (hbare o ho).1
    · exact (hcloseBare o ho).1

end

end

end SfcTsx.View
