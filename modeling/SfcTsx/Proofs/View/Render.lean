import SfcTsx.Proofs.View.Guards

namespace SfcTsx.View

open Markup Operation

variable {n body : Node} {o o' : Operation} {os os' : List Operation} {d slot : Directive}
  {s : Span} {R : Node → Operation → Prop} {previous : Option Span} {lo hi : Nat}
  {kind : BranchKind} {bs : List Branch}

section
variable {source : Text} {p : Prop}

theorem Sound.single {a b : Nat} (hw : o.Within a b)
    (hat : ∀ n ∈ o.offsets, source.isBoundary n = true) : Sound source p a b [o] :=
  ⟨by simpa using hw, by simpa using hat, List.pairwise_singleton _ _⟩

theorem Bare.sound {a b : Nat} (h : Bare os) (hw : ∀ o ∈ os, o.Within a b)
    (hat : ∀ o ∈ os, ∀ n ∈ o.offsets, source.isBoundary n = true) : Sound source p a b os :=
  ⟨hw, hat, by simpa using h.pairwise_append .nil⟩

theorem removeSpan_sound (h : SpanPlaced source s) :
    Sound source p s.start s.stop (removeSpan s) := by
  have := h.lt
  refine Sound.single ?_ ?_
  · simp only [Within]
    omega
  · simpa [Operation.offsets] using ⟨h.start_at, h.stop_at⟩

theorem removeSpans_sound {ss : List Span} (h : SpansWithin source lo hi ss) :
    Sound source p lo hi (ss.flatMap removeSpan) ∧ Bare (ss.flatMap removeSpan) := by
  have hmem : ∀ o ∈ ss.flatMap removeSpan, ∃ s ∈ ss, o = .remove s.start s.stop := by
    intro o ho
    obtain ⟨s, hs, ho⟩ := List.mem_flatMap.mp ho
    exact ⟨s, hs, List.mem_singleton.mp ho⟩
  have hbare : Bare (ss.flatMap removeSpan) := by
    intro o ho
    obtain ⟨s, hs, rfl⟩ := hmem o ho
    exact ⟨Nat.le_of_lt (h s hs).1.lt, rfl⟩
  refine ⟨hbare.sound (fun o ho => ?_) fun o ho => ?_, hbare⟩
  · obtain ⟨s, hs, rfl⟩ := hmem o ho
    obtain ⟨hp, h₁, h₂⟩ := h s hs
    have := hp.lt
    simp only [Within]
    omega
  · obtain ⟨s, hs, rfl⟩ := hmem o ho
    simpa [Operation.offsets] using ⟨(h s hs).1.start_at, (h s hs).1.stop_at⟩

theorem wrapFragment_sound (h : SpanPlaced source s) (place : Place) :
    Sound source p s.start s.stop (wrapFragment place s) ∧
      ∀ o ∈ wrapFragment place s, ∀ n ∈ o.offsets, n ≤ s.start ∨ s.stop ≤ n := by
  have hlt := h.lt
  cases place with
  | child => exact ⟨.nil, by simp [wrapFragment]⟩
  | expression =>
    have hmem : ∀ o ∈ wrapFragment .expression s, o = .prependRight s.start "<>".toList ∨
        o = .insertLeft s.stop "</>".toList := by
      simp [wrapFragment]
    have hbare : Bare (wrapFragment .expression s) := by
      intro o ho
      rcases hmem o ho with rfl | rfl <;> exact ⟨trivial, rfl⟩
    refine ⟨hbare.sound (fun o ho => ?_) fun o ho => ?_, fun o ho => ?_⟩
    · rcases hmem o ho with rfl | rfl
      · exact ⟨Nat.le_refl _, hlt⟩
      · exact ⟨hlt, Nat.le_refl _⟩
    · rcases hmem o ho with rfl | rfl
      · simpa [Operation.offsets] using h.start_at
      · simpa [Operation.offsets] using h.stop_at
    · rcases hmem o ho with rfl | rfl <;> simp [Operation.offsets]

theorem isTextMark_size {c : Char} (h : isTextMark c = true) : c.utf8Size = 1 := by
  simp only [isTextMark, Bool.or_eq_true, beq_iff_eq] at h
  rcases h with ((rfl | rfl) | rfl) | rfl <;> rfl

theorem escapeText_successive {offset : Nat} {text rest : Text} (hat : source.At offset (text ++ rest)) :
    Successive source offset (offset + text.size) (escapeText offset text) ∧
      ∀ o ∈ escapeText offset text, ∃ s e t, o = .overwrite s e t := by
  induction text generalizing offset with
  | nil => exact ⟨Nat.le_refl _, by simp [escapeText]⟩
  | cons c cs ih =>
    have hskip : source.At (offset + c.utf8Size) (cs ++ rest) := hat.skip (s := [c])
    obtain ⟨hcs, hops⟩ := ih hskip
    have hsize : offset + Text.size (c :: cs) = offset + c.utf8Size + Text.size cs := by
      simp [Nat.add_assoc]
    rw [hsize, escapeText]
    split
    next hmark =>
      have hone := isTextMark_size hmark
      rw [hone] at hskip hcs hops ⊢
      refine ⟨(overwrite_successive (Nat.le_refl _) (Nat.lt_succ_self _) (Nat.le_refl _) hat.isBoundary
        hskip.isBoundary).append hcs, fun o ho => ?_⟩
      rcases List.mem_append.mp ho with ho | ho
      · exact ⟨_, _, _, List.mem_singleton.mp ho⟩
      · exact hops o ho
    next => exact ⟨hcs.mono (Nat.le_add_right _ _), by simpa using hops⟩

theorem Successive.sound (h : Successive source lo hi os)
    (hops : ∀ o ∈ os, ∃ s e t, o = .overwrite s e t) : Sound source p lo hi os := by
  refine ⟨fun o ho => ?_, fun o ho n hn => ((h.mem.2 o ho).2 n hn).2.2, h.pairwise⟩
  obtain ⟨hstill, hoffsets⟩ := h.mem.2 o ho
  obtain ⟨s, e, t, rfl⟩ := hops o ho
  have hs := hoffsets s (by simp [Operation.offsets])
  have he := hoffsets e (by simp [Operation.offsets])
  exact ⟨hs.1, hstill, he.2.1⟩

theorem renderText_sound {data : Text} (h : TextPlaced source s data) (place : Place) :
    Sound source p s.start s.stop (renderText place s data) := by
  unfold renderText
  split
  · exact removeSpan_sound h.span
  · obtain ⟨rest, hat⟩ := h.text
    obtain ⟨hescape, hops⟩ := escapeText_successive hat
    rw [← h.stop_eq] at hescape
    obtain ⟨hwrap, hends⟩ := wrapFragment_sound (p := p) h.span place
    refine (hescape.sound hops).append hwrap fun o ho o' ho' => ?_
    obtain ⟨hstill, hoffsets⟩ := hescape.mem.2 o ho
    refine Still.compatible_of_apart hstill (fun r hr => ?_) (hends o' ho')
    obtain ⟨h₁, h₂⟩ := mem_offsets_of_covers hr
    exact ⟨(hoffsets _ h₁).1, (hoffsets _ h₂).2.1⟩

theorem renderInterpolation_sound (h : InterpolationPlaced source s) (env : Setting)
    (henv : env.source = source) (place : Place) :
    Sound source p s.start s.stop (renderInterpolation env place s) := by
  obtain ⟨body, rest, hstop, hat⟩ := h.text
  have htwo : Text.size ['{', '{'] = 2 := rfl
  have hbody := hat.skip
  rw [htwo] at hbody
  obtain ⟨hwrap, hends⟩ := wrapFragment_sound (p := p) h.span place
  have hopen : Successive source s.start (s.start + 2) [.overwrite s.start (s.start + 2) ['{']] :=
    overwrite_successive (Nat.le_refl _) (by omega) (Nat.le_refl _) hat.isBoundary hbody.isBoundary
  have hopenSound : Sound source p s.start (s.start + 2) [.overwrite s.start (s.start + 2) ['{']] :=
    hopen.sound (by simp)
  have hcross : ∀ {a b : Nat} {t : Text}, s.start ≤ a → a < b → b ≤ s.stop → ∀ o' ∈ wrapFragment place s,
      Compatible p (.overwrite a b t) o' := by
    intro a b t ha hab hb o' ho'
    refine Still.compatible_of_apart hab (x := s.start) (y := s.stop) ?_ (hends o' ho')
    simpa [Operation.covers] using ⟨ha, hb⟩
  unfold renderInterpolation
  rw [henv]
  split
  next hclose =>
    obtain ⟨hlen, hbefore⟩ := hclose
    obtain ⟨u, hu⟩ := Option.isSome_iff_exists.mp hbefore
    have hmarks := Text.before?_eq_some hu
    have hlen : 4 ≤ s.stop - s.start := hlen
    have htext : s.text source = ['{', '{'] ++ body := by
      have hat' : source.At s.start ((['{', '{'] ++ body) ++ rest) := by simpa using hat
      have hslice := hat'.slice
      rwa [Text.size_append, htwo, ← Nat.add_assoc, ← hstop] at hslice
    have hends : source.At s.start (u ++ (['}', '}'] ++ rest)) := by
      have : source.At s.start ((['{', '{'] ++ body) ++ rest) := by simpa using hat
      rw [← htext, hmarks] at this
      simpa using this
    have hsize : s.start + u.size = s.stop - 2 := by
      have hsum := congrArg Text.size (htext.symm.trans hmarks)
      have hone : Text.size ['}', '}'] = 2 := rfl
      simp only [Text.size_append, htwo, hone] at hsum
      omega
    have hmark := hends.skip.isBoundary
    rw [hsize] at hmark
    have hshut : Sound source p (s.start + 2) s.stop [.overwrite (s.stop - 2) s.stop ['}']] :=
      Successive.sound (overwrite_successive (by omega) (by omega) (Nat.le_refl _) hmark h.span.stop_at)
        (by simp)
    refine (hopenSound.append_apart hshut (by omega) (Nat.le_refl _) (by omega)).append hwrap ?_
    intro o ho o' ho'
    simp only [List.mem_append, List.mem_singleton] at ho
    rcases ho with rfl | rfl
    · exact hcross (Nat.le_refl _) (by omega) (by omega) o' ho'
    · exact hcross (by omega) (by omega) (Nat.le_refl _) o' ho'
  next =>
    have hshut : Sound source p s.start s.stop [.insertLeft s.stop ['}']] :=
      Sound.single ⟨h.span.lt, Nat.le_refl _⟩ (by simpa [Operation.offsets] using h.span.stop_at)
    refine ((hopenSound.mono (Nat.le_refl _) (by omega)).append hshut ?_).append hwrap ?_
    · intro o ho o' ho'
      obtain rfl := List.mem_singleton.mp ho
      obtain rfl := List.mem_singleton.mp ho'
      refine Still.compatible_of_apart (x := s.start) (y := s.stop) (by simp [Still]) ?_ ?_
      · simp only [Operation.covers, List.mem_singleton, forall_eq]
        omega
      · simp [Operation.offsets]
    · intro o ho o' ho'
      simp only [List.mem_append, List.mem_singleton] at ho
      rcases ho with rfl | rfl
      · exact hcross (Nat.le_refl _) (by omega) (by omega) o' ho'
      · exact Still.compatible_of_covers trivial rfl

section
variable {tag : Tag}

theorem Own.around {before children behind : List Operation} (h : TagPlaced source tag)
    (hb : Own source p tag before) (hstill : ∀ o ∈ before, o.Still)
    (hc : Sound source p tag.inner.start tag.inner.stop children) (he : Own source p tag behind)
    (hcross : ∀ o ∈ before, ∀ o' ∈ behind, Compatible p o o') :
    Sound source p tag.span.start tag.span.stop (before ++ children ++ behind) ∧
      ∀ o ∈ before ++ children ++ behind, Yields tag o := by
  have hinner := h.inner
  have hchildren := hc.mono (Nat.le_of_lt hinner.1) hinner.2.2
  refine ⟨(hb.sound.append hchildren fun o ho o' ho' => ?_).append he.sound fun o ho o' ho' => ?_, ?_⟩
  · exact (hstill o ho).compatible_between (hb.beside o ho) (hc.within o' ho').offsets
  · rcases List.mem_append.mp ho with ho | ho
    · exact hcross o ho o' ho'
    · exact (hc.within o ho).compatible_beside (he.beside o' ho')
  · intro o ho
    rcases List.mem_append.mp ho with ho | ho
    · rcases List.mem_append.mp ho with ho | ho
      · exact hb.yields o ho
      · -- what is done to the children is done behind all that guards use
        intro c hc'
        obtain ⟨hp, h₁, h₂⟩ := h.kept hc'
        have hw := hc.within o ho
        have hin := inner_start tag
        have hlt := hp.lt
        refine ⟨fun r hr => ?_, ?_⟩
        · have := hw.covers r hr
          omega
        · cases o with
          | moveRange s e d =>
            simp only [Within] at hw
            simp only
            omega
          | _ => trivial
    · exact he.yields o ho

theorem Own.behind {children behind : List Operation} (h : TagPlaced source tag)
    (hc : Sound source p tag.inner.start tag.inner.stop children) (he : Own source p tag behind) :
    Sound source p tag.span.start tag.span.stop (children ++ behind) ∧
      ∀ o ∈ children ++ behind, Yields tag o := by
  simpa using Own.around h Own.nil (by simp) hc he (by simp)

theorem openEntry_own (h : TagPlaced source tag) (hslot : slot ∈ tag.directives) :
    Own source p tag (openEntry tag slot) ∧ Bare (openEntry tag slot) := by
  refine h.removeExcept_bare _ fun s hs => ?_
  obtain ⟨exp, hexp, rfl⟩ := List.mem_map.mp hs
  obtain ⟨hplaced, hlo, hhi⟩ := h.directive hslot
  obtain ⟨hvalue, hspan⟩ := hplaced.expression (Option.mem_toList.mp hexp)
  have := hvalue.le
  have := hplaced.attr.name_pos
  exact ⟨hspan, by omega, by omega⟩

theorem closeEntry_own (h : TagPlaced source tag) (hslot : slot ∈ tag.directives) (separated : Bool) :
    Own source p tag (closeEntry tag slot separated) ∧
      ∀ o ∈ closeEntry tag slot separated, o.Still := by
  have hspan := h.span
  have hlt := hspan.lt
  have hinner := h.inner
  have hin := inner_start tag
  have hstart : ∀ text : Text, Own source p tag [.prependRight tag.span.start text] := by
    intro text
    refine h.own_single ⟨Nat.le_refl _, hlt⟩ trivial ?_ ?_ (by simp [Operation.covers])
    · simpa [Operation.offsets] using hspan.start_at
    · simp only [Beside, Operation.offsets, List.mem_singleton, forall_eq, and_true]
      omega
  have happend : ∀ opening closing : List Operation, Own source p tag opening ∧ Bare opening →
      (Own source p tag closing ∧ ∀ o ∈ closing, o.Still) →
      Own source p tag (opening ++ closing) ∧ ∀ o ∈ opening ++ closing, o.Still := by
    intro opening closing hopening hclosing
    obtain ⟨hown, hbare⟩ := hopening
    refine ⟨hown.append hclosing.1 fun o ho o' _ => hbare.compatible ho o', fun o ho => ?_⟩
    exact (List.mem_append.mp ho).elim (fun ho => (hbare o ho).1) (hclosing.2 o)
  unfold closeEntry
  dsimp only
  generalize (if separated then ", " else "").toList ++ slotKey slot ++ ": (".toList = head
  apply happend
  · split
    next exp hexp =>
      obtain ⟨hplaced, hlo, hhi⟩ := h.directive hslot
      obtain ⟨hvalue, hexpAt⟩ := hplaced.expression hexp
      have := hvalue.le
      have := hplaced.attr.name_pos
      have := h.name_start
      have := h.name_stop
      have hbare : Bare [Operation.insertLeft exp.span.stop ") => <>".toList] := bare_single trivial rfl
      have hinsert : Own source p tag [.insertLeft exp.span.stop ") => <>".toList] :=
        h.own_insert hbare rfl (by omega) hexpAt.stop_at (by omega)
      refine ⟨(hstart head).cons hinsert fun o ho o' _ => ?_, ?_⟩
      · obtain rfl := List.mem_singleton.mp ho
        exact Still.compatible_of_covers trivial rfl
      · exact (bare_single trivial rfl : Bare [Operation.prependRight tag.span.start head]).append hbare
    next => exact ⟨hstart _, bare_single trivial rfl⟩
  · split
    next close hclose =>
      obtain ⟨hle, hstop, hend, hsize, hat, -⟩ := h.closing hclose
      have hlt' : close.start < close.stop := by omega
      refine ⟨h.own_single ⟨by omega, hlt', by omega⟩ hlt' ?_ ?_ ?_, ?_⟩
      · simpa [Operation.offsets, hend] using ⟨hat, hspan.stop_at⟩
      · simp only [Beside, Operation.offsets, List.mem_cons, List.not_mem_nil, or_false, forall_eq_or_imp,
          forall_eq]
        omega
      · simpa [Operation.covers] using .inr hle
      · simpa [Still] using hlt'
    next =>
      refine ⟨h.own_single ⟨hlt, Nat.le_refl _⟩ trivial ?_ ?_ (by simp [Operation.covers]), by simp [Still]⟩
      · simpa [Operation.offsets] using hspan.stop_at
      · simp only [Beside, Operation.offsets, List.mem_singleton, forall_eq, and_true]
        omega

/-- An edit of a child. The child may be moved as a whole if it is an entry. -/
def Inside (n : Node) (o : Operation) : Prop :=
  o.Within n.span.start n.span.stop ∧
    (n.slot?.isSome = true → ∀ s e d, o = .moveRange s e d → n.span.start < d)

theorem mem_wrapEntries {inner close : Span} {children : List Node}
    (ho : o ∈ wrapEntries inner close children) :
    (∃ n t, o = .insertLeft n t ∧ (n = inner.start ∨ ∃ child ∈ children, n = child.span.stop)) ∨
      (∃ t, o = .prependRight close.start t) ∨
      ∃ child ∈ children, ∃ last ∈ children, child.slot?.isSome = true ∧
        child.span.stop ≤ last.span.start ∧
        o = .moveRange child.span.start child.span.stop close.start := by
  unfold wrapEntries at ho
  dsimp only at ho
  rcases List.mem_append.mp ho with ho | ho
  · split at ho
    · exact .inl ⟨_, _, List.mem_singleton.mp ho, .inl rfl⟩
    next last hlast =>
      have hmem : last ∈ children := List.mem_of_mem_filter (List.mem_of_getLast? hlast)
      rcases List.mem_append.mp ho with ho | ho
      · simp only [List.mem_cons, List.not_mem_nil, or_false] at ho
        rcases ho with rfl | rfl
        · exact .inl ⟨_, _, rfl, .inl rfl⟩
        · exact .inl ⟨_, _, rfl, .inr ⟨last, hmem, rfl⟩⟩
      · obtain ⟨child, hchild, rfl⟩ := List.mem_map.mp ho
        obtain ⟨hchild, hearly⟩ := List.mem_filter.mp hchild
        simp only [Bool.and_eq_true, decide_eq_true_eq] at hearly
        exact .inr (.inr ⟨child, hchild, last, hmem, hearly.1, hearly.2, rfl⟩)
  · exact .inr (.inl ⟨_, List.mem_singleton.mp ho⟩)

theorem AllFormed.compatible_insert {ok : Tag → Prop} {m : Nat} {children : List Node} {t : Text}
    (hc : AllFormed source ok lo hi children) (hn : n ∈ children)
    (hw : o.Within n.span.start n.span.stop) (hm : m = lo ∨ ∃ child ∈ children, m = child.span.stop) :
    Compatible p o (.insertLeft m t) := by
  refine hw.compatible_beside ⟨?_, trivial⟩
  simp only [Operation.offsets, List.mem_singleton, forall_eq]
  rcases hm with rfl | ⟨child, hchild, rfl⟩
  · exact .inl (hc.mem hn).2.1
  · have := (hc.mem hchild).1.span.lt
    rcases hc.apart hn hchild with rfl | hap
    · exact .inr (Nat.le_refl _)
    · omega

section
variable {ok : Tag → Prop} {close : Span} {children : List Node} (h : TagPlaced source tag)
  (hclose : tag.closeTag = some close)
  (hc : AllFormed source ok tag.inner.start tag.inner.stop children)
include h hclose hc

theorem wrapEntries_sound : Sound source p tag.span.start tag.span.stop (wrapEntries tag.inner close children) ∧
    ∀ o ∈ wrapEntries tag.inner close children, Yields tag o := by
  obtain ⟨hle, hinner, hstop, hsize, hat, -⟩ := h.closing hclose
  have hspan := h.inner
  have hin := inner_start tag
  have hmem := fun child hchild => hc.mem (n := child) hchild
  refine ⟨⟨fun o ho => ?_, fun o ho => ?_, ?_⟩, fun o ho c hc' => ?_⟩
  · rcases mem_wrapEntries ho with ⟨n, t, rfl, hn⟩ | ⟨t, rfl⟩ | ⟨child, hchild, last, hlast, -, hbefore, rfl⟩
    · simp only [Within]
      rcases hn with rfl | ⟨child, hchild, rfl⟩
      · omega
      · obtain ⟨hf, h₁, h₂⟩ := hmem child hchild
        have := hf.span.lt
        omega
    · simp only [Within]
      omega
    · obtain ⟨hf, h₁, h₂⟩ := hmem child hchild
      obtain ⟨hf', h₁', h₂'⟩ := hmem last hlast
      have := hf.span.lt
      have := hf'.span.lt
      simp only [Within]
      omega
  · rcases mem_wrapEntries ho with ⟨n, t, rfl, hn⟩ | ⟨t, rfl⟩ | ⟨child, hchild, last, hlast, -, hbefore, rfl⟩
    · rcases hn with rfl | ⟨child, hchild, rfl⟩
      · simpa [Operation.offsets, hin] using h.bracket_at.2.2
      · simpa [Operation.offsets] using (hmem child hchild).1.span.stop_at
    · simpa [Operation.offsets] using hat
    · have hf := (hmem child hchild).1.span
      simpa [Operation.offsets] using ⟨hf.start_at, hf.stop_at, hat⟩
  · have hshut : Bare [Operation.prependRight close.start " \x7d\x7d".toList] := bare_single trivial rfl
    unfold wrapEntries
    dsimp only
    split
    · exact (bare_single trivial rfl : Bare [Operation.insertLeft _ _]).pairwise_append
        (List.pairwise_singleton _ _)
    next last hlast =>
      have hopen : Bare [Operation.insertLeft tag.inner.start "\x7b\x7b default: () => <>".toList,
          .insertLeft last.span.stop "</>".toList] :=
        (bare_single trivial rfl : Bare [Operation.insertLeft _ _]).append (bare_single trivial rfl)
      refine List.pairwise_append.mpr ⟨hopen.pairwise_append ?_, List.pairwise_singleton _ _, ?_⟩
      · refine List.pairwise_map.mpr ((hc.pairwise.filter _).imp_of_mem fun {c c'} hm hm' hcc' => ?_)
        obtain ⟨hf, h₁, h₂⟩ := hmem c (List.mem_of_mem_filter hm)
        obtain ⟨hf', h₁', h₂'⟩ := hmem c' (List.mem_of_mem_filter hm')
        have := hf.span.lt
        have := hf'.span.lt
        refine ⟨?_, fun _ r hr => by simp [Operation.covers] at hr⟩
        simp only [Orderly, Apart, Off]
        omega
      · intro o ho o' ho'
        obtain ⟨hstill, hcovers⟩ := hshut o' ho'
        refine compatible_insert ?_ hstill hcovers
        rcases List.mem_append.mp ho with ho | ho
        · exact (hopen o ho).2
        · obtain ⟨c, -, rfl⟩ := List.mem_map.mp ho
          rfl
  · obtain ⟨hp, h₁, h₂⟩ := h.kept hc'
    rcases mem_wrapEntries ho with ⟨n, t, rfl, hn⟩ | ⟨t, rfl⟩ | ⟨child, hchild, last, hlast, -, hbefore, rfl⟩
    · exact ⟨by simp [Operation.covers], trivial⟩
    · exact ⟨by simp [Operation.covers], trivial⟩
    · obtain ⟨hf, h₁', h₂'⟩ := hmem child hchild
      refine ⟨by simp [Operation.covers], ?_⟩
      simp only
      omega

theorem Inside.compatible_wrapEntries (hn : n ∈ children) (ho : Inside n o)
    (ho' : o' ∈ wrapEntries tag.inner close children) : Compatible p o o' := by
  obtain ⟨hw, hslot⟩ := ho
  obtain ⟨hle, hinner, -⟩ := h.closing hclose
  obtain ⟨hf, hlo, hhi⟩ := hc.mem hn
  have hlt := hf.span.lt
  rcases mem_wrapEntries ho' with ⟨m, t, rfl, hm⟩ | ⟨t, rfl⟩ | ⟨child, hchild, last, hlast, hs, hbefore, rfl⟩
  · exact hc.compatible_insert hn hw hm
  · refine hw.compatible_beside ⟨?_, trivial⟩
    simp only [Operation.offsets, List.mem_singleton, forall_eq]
    omega
  · obtain ⟨hf', h₁, h₂⟩ := hc.mem hchild
    have := hf'.span.lt
    rcases hc.apart hn hchild with rfl | hap
    · -- an entry is moved with what was moved inside it
      refine ⟨?_, fun _ r hr m hm => ?_⟩
      · cases o with
        | moveRange s e d =>
          have hd := hslot hs s e d rfl
          simp only [Within] at hw
          simp only [Orderly, Apart, Off]
          omega
        | _ => trivial
      · have := hw.covers r hr
        obtain rfl | rfl | rfl : m = n.span.start ∨ m = n.span.stop ∨ m = close.start := by
          simpa [Operation.offsets] using hm
        · omega
        · omega
        · omega
    · refine hw.compatible_beside ⟨?_, ?_⟩
      · simp only [Operation.offsets, List.mem_cons, List.not_mem_nil, or_false, forall_eq_or_imp, forall_eq]
        omega
      · simp only
        omega

theorem wrapEntries_compatible (ho : o ∈ wrapEntries tag.inner close children) (hstill : o'.Still)
    (hbeside : o'.Beside tag.inner.start tag.inner.stop) : Compatible p o o' := by
  obtain ⟨hle, hinner, -⟩ := h.closing hclose
  rcases mem_wrapEntries ho with ⟨n, t, rfl, hn⟩ | ⟨t, rfl⟩ | ⟨child, hchild, last, hlast, -, hbefore, rfl⟩
  · exact Still.compatible_of_covers trivial rfl
  · exact Still.compatible_of_covers trivial rfl
  · obtain ⟨hf, h₁, h₂⟩ := hc.mem hchild
    refine ⟨?_, fun _ r hr => by simp [Operation.covers] at hr⟩
    cases o' with
    | overwrite s e t =>
      have hside : e ≤ tag.inner.start ∨ tag.inner.stop ≤ s := hbeside.2
      have := h.inner
      simp only [Orderly, Apart]
      omega
    | moveRange s e d => exact hstill.elim
    | _ => trivial

end

end

section
variable {env : Setting} {ok : Tag → Prop} {tag : Tag} {children : List Node} {close : Span}

/-- The edits of a node can be made one after the other and yield to its guards. -/
structure Plain (env : Setting) (source : Text) (p : Prop) (n : Node) : Prop where
  sound : ∀ place, Sound source p n.span.start n.span.stop (render env place n)
  yields : ∀ place tag, n.ownTag? = some tag → ∀ o ∈ render env place n, Yields tag o

/-- What is known of the edits of a node and of those inside it. -/
structure NodeSound (env : Setting) (source : Text) (p : Prop) (n : Node) : Prop extends
    Plain env source p n where
  children : ∀ tag slot children, n = .container tag slot children →
    Sound source p tag.inner.start tag.inner.stop (renderAll env .child children)
  body : ∀ d parts body, n = .loop d parts body → Plain env source p body

def Touches (n : Node) (o : Operation) : Prop := o.Within n.span.start n.span.stop

structure AllSound (R : Node → Operation → Prop) (source : Text) (p : Prop) (lo hi : Nat)
    (ns : List Node) (os : List Operation) : Prop where
  sound : Sound source p lo hi os
  mem : ∀ o ∈ os, ∃ n ∈ ns, R n o

theorem AllSound.nil : AllSound R source p lo hi [] [] :=
  ⟨.nil, by simp⟩

theorem AllSound.cons {ns : List Node} (hle : lo ≤ n.span.start) (hf : Formed source ok n)
    (hns : AllFormed source ok n.span.stop hi ns) (hn : Sound source p n.span.start n.span.stop os)
    (hR : ∀ o ∈ os, R n o) (hos' : AllSound R source p n.span.stop hi ns os') :
    AllSound R source p lo hi (n :: ns) (os ++ os') := by
  have hlt := hf.span.lt
  refine ⟨(hn.mono hle (Nat.le_refl _)).append_apart hos'.sound (by omega) (Nat.le_refl _) hns.le, ?_⟩
  intro o ho
  rcases List.mem_append.mp ho with ho | ho
  · exact ⟨n, by simp, hR o ho⟩
  · obtain ⟨m, hm, hw⟩ := hos'.mem o ho
    exact ⟨m, by simp [hm], hw⟩

theorem Formed.ownTag (h : Formed source ok n) (ht : n.ownTag? = some tag) :
    TagPlaced source tag ∧ n.span = tag.span := by
  cases n with
  | element t children => exact Option.some.inj ht ▸ ⟨h.1, rfl⟩
  | component t children => exact Option.some.inj ht ▸ ⟨h.1, rfl⟩
  | container t slot children => exact Option.some.inj ht ▸ ⟨h.1, rfl⟩
  | _ => cases ht

theorem Plain.guarded {gs : List Operation} (hn : Plain env source p n) (hf : Formed source ok n)
    (ht : n.ownTag? = some tag) (hd : d ∈ tag.directives) (hs : isStructural d = true)
    (hg : Guards p tag d gs) (place : Place) :
    Sound source p n.span.start n.span.stop (render env place n ++ gs) := by
  obtain ⟨htag, hspan⟩ := hf.ownTag ht
  have hsound := hn.sound place
  rw [hspan] at hsound ⊢
  exact hsound.append (hg.sound htag hd) fun o ho g hgm =>
    GuardOf.compatible htag hd hs (hsound.within o ho) (hn.yields place tag ht o ho) (hg.mem g hgm)

theorem Plain.guarded_twice {d' : Directive} {gs gs' : List Operation} (hn : Plain env source p n)
    (hf : Formed source ok n) (ht : n.ownTag? = some tag) (hd : d ∈ tag.directives)
    (hs : isStructural d = true) (hg : Guards p tag d gs) (hd' : d' ∈ tag.directives)
    (hs' : isStructural d' = true) (hg' : Guards p tag d' gs') (hne : d ≠ d') (place : Place) :
    Sound source p n.span.start n.span.stop (render env place n ++ gs ++ gs') := by
  obtain ⟨htag, hspan⟩ := hf.ownTag ht
  have hsound := hn.guarded hf ht hd hs hg place
  rw [hspan] at hsound ⊢
  refine hsound.append (hg'.sound htag hd') fun o ho g hgm => ?_
  rcases List.mem_append.mp ho with ho | ho
  · have hw := (hn.sound place).within o ho
    rw [hspan] at hw
    exact GuardOf.compatible htag hd' hs' hw (hn.yields place tag ht o ho) (hg'.mem g hgm)
  · exact GuardOf.compatible_guard htag hd hd' hne (hg.mem o ho) (hg'.mem g hgm)

theorem loop_sound {parts : Option Loop} (h : Formed source ok (.loop d parts body))
    (hbody : Plain env source p body) : NodeSound env source p (.loop d parts body) := by
  obtain ⟨hf, tag, ht, hd, hname, exp, hexp, hparts⟩ := h
  obtain ⟨htag, hspan⟩ := hf.ownTag ht
  refine ⟨⟨fun place => ?_, by simp [Node.ownTag?]⟩, by simp, ?_⟩
  · have hg := htag.guardLoop_guards (p := p) hd env hname hexp hparts (decide (place = .child))
    rw [← hspan] at hg
    exact hbody.guarded hf ht hd (by simp [isStructural, hname]) hg .expression
  · rintro d' parts' body' heq
    obtain ⟨-, -, rfl⟩ := Node.loop.inj heq
    exact hbody

def branchEdits (env : Setting) (kind : BranchKind) (d : Directive) (opens : Bool) (body : Node) :
    List Operation :=
  let condition (body : Span) := if kind = .elseBranch then [] else guardCondition d opens body
  match body with
  | .loop loop parts inner =>
    render env .expression inner ++ condition inner.span ++ guardLoop env loop parts inner.span false
  | body => render env .expression body ++ condition body.span

theorem branch_sound (hf : Formed source ok body) (hbody : NodeSound env source p body)
    (hb : Branches kind d body) (opens : Bool) :
    Sound source p body.span.start body.span.stop (branchEdits env kind d opens body) := by
  obtain ⟨tag, ht, hd, hkind⟩ := hb
  have hguards : Guards p tag d (if kind = .elseBranch then [] else guardCondition d opens tag.span) := by
    cases kind with
    | ifBranch => exact guardCondition_guards (.inl hkind) opens
    | elseIfBranch => exact guardCondition_guards (.inr hkind) opens
    | elseBranch => exact ⟨by simp, by simp⟩
  have hs : isStructural d = true := by
    cases kind <;> simp [isStructural, show d.name = _ from hkind]
  have hfor : d.name ≠ "for" := by
    cases kind <;> simp [show d.name = _ from hkind]
  have hplain : body.ownTag? = some tag → Sound source p body.span.start body.span.stop
      (render env .expression body ++
        if kind = .elseBranch then [] else guardCondition d opens body.span) := by
    intro hown
    have hspan := (hf.ownTag hown).2
    rw [← hspan] at hguards
    exact hbody.guarded hf hown hd hs hguards .expression
  cases body with
  | loop l parts inner =>
    obtain ⟨hinner, tag', ht', hl, hname, exp, hexp, hparts⟩ := hf
    obtain rfl : tag = tag' := Option.some.inj (ht.symm.trans ht')
    obtain ⟨htag, hspan⟩ := hinner.ownTag ht
    have hloop := htag.guardLoop_guards (p := p) hl env hname hexp hparts false
    rw [← hspan] at hguards hloop
    refine (hbody.body l parts inner rfl).guarded_twice hinner ht hd hs hguards hl
      (by simp [isStructural, hname]) hloop ?_ .expression
    rintro rfl
    exact hfor hname
  | element tag' children => exact hplain ht
  | component tag' children => exact hplain ht
  | container tag' slot children => exact hplain ht
  | _ => cases ht

theorem renderBranches_cons {place : Place} :
    renderBranches env place previous (.mk kind d body :: bs) =
      previous.toList.map (fun s => .insertLeft s.stop " : ".toList) ++
        branchEdits env kind d (place = .child && previous.isNone) body ++
        renderBranches env place (some body.span) bs := by
  cases body <;> simp only [renderBranches, branchEdits]

/-- Edits of branches that follow the body `previous`. -/
structure BranchesSound (source : Text) (p : Prop) (lo hi : Nat) (previous : Option Span)
    (os : List Operation) : Prop where
  within : ∀ o ∈ os, o.Within lo hi ∨ ∃ s ∈ previous, ∃ t, o = .insertLeft s.stop t
  boundary : ∀ o ∈ os, ∀ n ∈ o.offsets, source.isBoundary n = true
  compatible : os.Pairwise (Compatible p)

theorem BranchesSound.sound (h : BranchesSound source p lo hi none os) :
    Sound source p lo hi os := by
  refine ⟨fun o ho => ?_, h.boundary, h.compatible⟩
  rcases h.within o ho with hw | ⟨s, hs, -⟩
  · exact hw
  · cases hs

theorem BranchesSound.cons (hprevious : ∀ s ∈ previous, source.isBoundary s.stop = true)
    (hlo : lo ≤ s.start) (hlt : s.start < s.stop) (hhi : s.stop ≤ hi)
    (hs : Sound source p s.start s.stop os) (h : BranchesSound source p s.stop hi (some s) os') :
    BranchesSound source p lo hi previous
      (previous.toList.map (fun s => .insertLeft s.stop " : ".toList) ++ os ++ os') := by
  have hjoin : ∀ o ∈ previous.toList.map (fun s => Operation.insertLeft s.stop " : ".toList),
      ∃ s ∈ previous, o = .insertLeft s.stop " : ".toList := by
    intro o ho
    obtain ⟨s, hs, rfl⟩ := List.mem_map.mp ho
    exact ⟨s, Option.mem_toList.mp hs, rfl⟩
  have hbare : Bare (previous.toList.map fun s => Operation.insertLeft s.stop " : ".toList) := by
    intro o ho
    obtain ⟨s, -, rfl⟩ := hjoin o ho
    exact ⟨trivial, rfl⟩
  refine ⟨fun o ho => ?_, fun o ho => ?_, ?_⟩
  · rcases List.mem_append.mp ho with ho | ho
    · rcases List.mem_append.mp ho with ho | ho
      · obtain ⟨s, hs, rfl⟩ := hjoin o ho
        exact .inr ⟨s, hs, _, rfl⟩
      · exact .inl ((hs.within o ho).mono hlo hhi)
    · rcases h.within o ho with hw | ⟨t, ht, text, rfl⟩
      · exact .inl (hw.mono (by omega) (Nat.le_refl _))
      · obtain rfl := Option.some.inj ht
        exact .inl ⟨by omega, hhi⟩
  · rcases List.mem_append.mp ho with ho | ho
    · rcases List.mem_append.mp ho with ho | ho
      · obtain ⟨s, hs, rfl⟩ := hjoin o ho
        simpa [Operation.offsets] using hprevious s hs
      · exact hs.boundary o ho
    · exact h.boundary o ho
  · rw [List.append_assoc]
    refine hbare.pairwise_append (List.pairwise_append.mpr ⟨hs.compatible, h.compatible, ?_⟩)
    intro o ho o' ho'
    have hw := hs.within o ho
    rcases h.within o' ho' with hw' | ⟨t, ht, text, rfl⟩
    · exact hw.compatible hw' (.inl (Nat.le_refl _))
    · obtain rfl := Option.some.inj ht
      refine hw.compatible_beside ⟨?_, trivial⟩
      simp [Operation.offsets]

theorem BranchesFormed.getLast {b : Branch} (h : BranchesFormed source ok lo hi bs)
    (hb : bs.getLast? = some b) : b.span.stop = (branchesSpan bs).stop := by
  induction bs generalizing lo with
  | nil => cases hb
  | cons b' bs ih =>
    obtain ⟨kind, d, body⟩ := b'
    by_cases hbs : bs = []
    · subst hbs
      obtain rfl : Branch.mk kind d body = b := by simpa using hb
      rfl
    · have hlast : bs.getLast? = some b := by
        rwa [List.getLast?_cons_of_ne_nil hbs] at hb
      rw [branchesSpan_cons hbs h]
      exact ih h.2.2.2 hlast

theorem group_sound {branches : List Branch} {separators : List Span}
    (h : Formed source ok (.group branches separators))
    (hb : ∀ place, BranchesSound source p (branchesSpan branches).start (branchesSpan branches).stop none
      (renderBranches env place none branches)) : NodeSound env source p (.group branches separators) := by
  have hspan : SpanPlaced source (branchesSpan branches) := h.span
  obtain ⟨hne, hbranches, hseparators⟩ := h
  refine ⟨⟨fun place => ?_, by simp [Node.ownTag?]⟩, by simp, by simp⟩
  rw [render]
  obtain ⟨hremove, hbare⟩ := removeSpans_sound (p := p) hseparators
  have hsound := hremove.append (hb place).sound fun o ho o' _ => hbare.compatible ho o'
  have hclose : ∀ o ∈ closeChain place branches, ∃ t, o = .insertLeft (branchesSpan branches).stop t := by
    intro o ho
    unfold closeChain at ho
    split at ho
    · cases ho
    next last hlast =>
      obtain ⟨-, ho⟩ := List.mem_ite_nil_left.mp ho
      rw [hbranches.getLast hlast] at ho
      exact ⟨_, List.mem_singleton.mp ho⟩
  have hcloseBare : Bare (closeChain place branches) := by
    intro o ho
    obtain ⟨t, rfl⟩ := hclose o ho
    exact ⟨trivial, rfl⟩
  refine hsound.append (hcloseBare.sound (fun o ho => ?_) fun o ho => ?_) fun o ho o' ho' => ?_
  · obtain ⟨t, rfl⟩ := hclose o ho
    exact ⟨hspan.lt, Nat.le_refl _⟩
  · obtain ⟨t, rfl⟩ := hclose o ho
    simpa [Operation.offsets] using hspan.stop_at
  · obtain ⟨t, rfl⟩ := hclose o' ho'
    refine (hsound.within o ho).compatible_beside ⟨?_, trivial⟩
    simp [Operation.offsets]

theorem element_sound (henv : env.source = source) (h : TagPlaced source tag)
    (htidy : p → ∀ d ∈ tag.directives, Tidy source d)
    (hc : AllSound Touches source p tag.inner.start tag.inner.stop children (renderAll env .child children)) :
    NodeSound env source p (.element tag children) := by
  have hall := Own.behind h hc.sound (h.renderTags_own env henv false htidy)
  refine ⟨⟨fun place => ?_, fun place t ht => ?_⟩, by simp, by simp⟩
  · rw [render]
    exact hall.1
  · obtain rfl := Option.some.inj ht
    rw [render]
    exact hall.2

theorem passing_ownSlot (h : passing tag children = .ownSlot close d) :
    tag.closeTag = some close ∧ d ∈ tag.directives ∧ d.name = "slot" := by
  unfold passing at h
  split at h
  · cases h
  next hclose =>
    split at h
    · cases h
    · split at h
      next hd =>
        cases h
        exact ⟨hclose, directive?_eq_some hd⟩
      · cases h

theorem passing_entries (h : passing tag children = .entries close) :
    tag.closeTag = some close := by
  unfold passing at h
  split at h
  · cases h
  next hclose =>
    split at h
    · cases h
      exact hclose
    · split at h <;> cases h

theorem component_sound (henv : env.source = source) (h : TagPlaced source tag)
    (htidy : p → ∀ d ∈ tag.directives, Tidy source d)
    (hf : AllFormed source ok tag.inner.start tag.inner.stop children)
    (hc : AllSound Touches source p tag.inner.start tag.inner.stop children (renderAll env .child children))
    (he : ∀ separated, AllSound Inside source p tag.inner.start tag.inner.stop children
      (renderEntries env separated children)) :
    NodeSound env source p (.component tag children) := by
  have htags := h.renderTags_own env henv true htidy
  obtain ⟨hslot, hslotBare⟩ := h.removeOwnSlot_own (p := p) env henv
  have hall : ∀ place, Sound source p tag.span.start tag.span.stop (render env place (.component tag children)) ∧
      ∀ o ∈ render env place (.component tag children), Yields tag o := by
    intro place
    rw [render]
    split
    · rw [List.append_assoc]
      exact Own.behind h hc.sound (hslot.append htags fun o ho o' _ => hslotBare.compatible ho o')
    next close d hpass =>
      obtain ⟨hclose, hd, hname⟩ := passing_ownSlot hpass
      rw [List.append_assoc]
      exact Own.behind h hc.sound (h.wrapOwnSlot_renderTags env henv hclose hd hname htidy)
    next close hpass =>
      have hclose := passing_entries hpass
      generalize (children.any fun child => !child.isInsignificant && child.slot?.isNone) = separated
      have hentries := he separated
      obtain ⟨hwrap, hyields⟩ := wrapEntries_sound (p := p) h hclose hf
      have hinner := h.inner
      obtain ⟨hbefore, hbeforeYields⟩ := Own.around h hslot (fun o ho => (hslotBare o ho).1) hentries.sound
        Own.nil (by simp)
      rw [List.append_nil] at hbefore hbeforeYields
      have hchildren := hbefore.append hwrap fun o ho o' ho' => by
        rcases List.mem_append.mp ho with ho | ho
        · exact hslotBare.compatible ho o'
        · obtain ⟨n, hn, hinside⟩ := hentries.mem o ho
          exact hinside.compatible_wrapEntries h hclose hf hn ho'
      refine ⟨hchildren.append htags.sound fun o ho o' ho' => ?_, fun o ho => ?_⟩
      · have hstill := (h.mem_renderTags henv ho').1
        have hbeside := htags.beside o' ho'
        rcases List.mem_append.mp ho with ho | ho
        · rcases List.mem_append.mp ho with ho | ho
          · exact hslotBare.compatible ho o'
          · exact (hentries.sound.within o ho).compatible_beside hbeside
        · exact wrapEntries_compatible h hclose hf ho hstill hbeside
      · rcases List.mem_append.mp ho with ho | ho
        · rcases List.mem_append.mp ho with ho | ho
          · exact hbeforeYields o ho
          · exact hyields o ho
        · exact htags.yields o ho
  refine ⟨⟨fun place => (hall place).1, fun place t ht => ?_⟩, by simp, by simp⟩
  obtain rfl := Option.some.inj ht
  exact (hall place).2

theorem mem_joinItems {start : Nat} {items : List Span} (ho : o ∈ joinItems start items) :
    ∃ n t, o = .insertLeft n t ∧ (n = start ∨ ∃ s ∈ items, n = s.stop) := by
  match items, ho with
  | [], ho => exact ⟨_, _, List.mem_singleton.mp ho, .inl rfl⟩
  | [_], ho => cases ho
  | s :: t :: ss, ho =>
    simp only [joinItems, List.mem_cons, List.mem_append, List.mem_map] at ho
    rcases ho with rfl | ⟨s', hs', rfl⟩ | ⟨s', hs', rfl⟩
    · exact ⟨_, _, rfl, .inl rfl⟩
    · exact ⟨_, _, rfl, .inr ⟨s', List.mem_of_mem_dropLast hs', rfl⟩⟩
    · exact ⟨_, _, rfl, .inr ⟨s', List.mem_of_getLast? (Option.mem_toList.mp hs'), rfl⟩⟩

theorem container_sound {slot : Option Directive} (h : TagPlaced source tag)
    (hf : AllFormed source ok tag.inner.start tag.inner.stop children)
    (hc : AllSound Touches source p tag.inner.start tag.inner.stop children (renderAll env .child children))
    (hi : AllSound Touches source p tag.inner.start tag.inner.stop children (renderItems env children)) :
    NodeSound env source p (.container tag slot children) := by
  obtain ⟨hremove, hstill⟩ := h.removeTags_own (p := p)
  have hinner := h.inner
  have hin := inner_start tag
  have hbefore : ∀ os, AllSound Touches source p tag.inner.start tag.inner.stop children os →
      Sound source p tag.span.start tag.span.stop (removeTags tag ++ os) ∧
        ∀ o ∈ removeTags tag ++ os, Yields tag o := by
    intro os hos
    simpa using Own.around h hremove hstill hos.sound Own.nil (by simp)
  have hjoin : ∀ o ∈ joinItems tag.startTag.stop ((children.filter fun child => !child.isInsignificant).map
      Node.span), ∃ n t, o = .insertLeft n t ∧ (n = tag.inner.start ∨ ∃ m ∈ children, n = m.span.stop) := by
    intro o ho
    obtain ⟨n, t, rfl, hn⟩ := mem_joinItems ho
    refine ⟨n, t, rfl, hn.imp_right ?_⟩
    rintro ⟨s, hs, rfl⟩
    obtain ⟨m, hm, rfl⟩ := List.mem_map.mp hs
    exact ⟨m, List.mem_of_mem_filter hm, rfl⟩
  have hall : ∀ place, Sound source p tag.span.start tag.span.stop
      (render env place (.container tag slot children)) ∧
      ∀ o ∈ render env place (.container tag slot children), Yields tag o := by
    intro place
    cases place with
    | child =>
      simp only [render]
      exact hbefore _ hc
    | expression =>
      simp only [render]
      obtain ⟨hsound, hyields⟩ := hbefore _ hi
      generalize joinItems tag.startTag.stop ((children.filter fun child => !child.isInsignificant).map
        Node.span) = joined at hjoin ⊢
      have hbare : Bare joined := by
        intro o ho
        obtain ⟨n, t, rfl, -⟩ := hjoin o ho
        exact ⟨trivial, rfl⟩
      have hplace : ∀ m ∈ children, tag.inner.start < m.span.stop ∧ m.span.stop ≤ tag.inner.stop ∧
          source.isBoundary m.span.stop = true := by
        intro m hm
        obtain ⟨hf, h₁, h₂⟩ := hf.mem hm
        have := hf.span.lt
        exact ⟨by omega, h₂, hf.span.stop_at⟩
      rw [← List.append_assoc]
      refine ⟨hsound.append (hbare.sound (fun o ho => ?_) fun o ho => ?_) fun o ho o' ho' => ?_, fun o ho => ?_⟩
      · obtain ⟨n, t, rfl, rfl | ⟨m, hm, rfl⟩⟩ := hjoin o ho
        · simp only [Within]
          omega
        · have := hplace m hm
          simp only [Within]
          omega
      · obtain ⟨n, t, rfl, rfl | ⟨m, hm, rfl⟩⟩ := hjoin o ho
        · simpa [Operation.offsets, hin] using h.bracket_at.2.2
        · simpa [Operation.offsets] using (hplace m hm).2.2
      · obtain ⟨n, t, rfl, hn⟩ := hjoin o' ho'
        rcases List.mem_append.mp ho with ho | ho
        · refine (hstill o ho).compatible_between (hremove.beside o ho) ?_
          simp only [Operation.offsets, List.mem_singleton, forall_eq]
          rcases hn with rfl | ⟨m, hm, rfl⟩
          · omega
          · have := hplace m hm
            omega
        · obtain ⟨m, hm, hw⟩ := hi.mem o ho
          exact hf.compatible_insert hm hw hn
      · rcases List.mem_append.mp ho with ho | ho
        · exact hyields o ho
        · obtain ⟨n, t, rfl, -⟩ := hjoin o ho
          exact fun c _ => ⟨by simp [Operation.covers], trivial⟩
  refine ⟨⟨fun place => (hall place).1, fun place t ht => ?_⟩, ?_, by simp⟩
  · obtain rfl := Option.some.inj ht
    exact (hall place).2
  · rintro t s cs heq
    obtain ⟨rfl, -, rfl⟩ := Node.container.inj heq
    exact hc.sound

theorem insignificant_sound (h : Formed source ok n) (hn : n.isInsignificant = true) :
    Sound source p n.span.start n.span.stop (removeSpan n.span) ∧ n.slot? = none := by
  refine ⟨removeSpan_sound h.span, ?_⟩
  cases n <;> first | rfl | cases hn

theorem renderEntries_cons (env : Setting) (separated : Bool) (n : Node) (ns : List Node) :
    ∃ os separated', renderEntries env separated (n :: ns) = os ++ renderEntries env separated' ns ∧
      ((∃ tag slot children, n = .container tag (some slot) children ∧
        os = openEntry tag slot ++ renderAll env .child children ++ closeEntry tag slot separated) ∨
      n.slot? = none ∧ os = if n.isInsignificant then removeSpan n.span else render env .child n) := by
  cases n with
  | container tag slot children =>
    cases slot with
    | some slot => exact ⟨_, _, by rw [renderEntries], .inl ⟨tag, slot, children, rfl, rfl⟩⟩
    | none => exact ⟨_, _, by rw [renderEntries]; simp, .inr ⟨rfl, rfl⟩⟩
  | _ => exact ⟨_, _, by rw [renderEntries]; simp, .inr ⟨rfl, rfl⟩⟩

theorem entry_sound (h : Formed source ok n) (hn : NodeSound env source p n) {separated : Bool}
    (hos : (∃ tag slot children, n = .container tag (some slot) children ∧
        os = openEntry tag slot ++ renderAll env .child children ++ closeEntry tag slot separated) ∨
      n.slot? = none ∧ os = if n.isInsignificant then removeSpan n.span else render env .child n) :
    Sound source p n.span.start n.span.stop os ∧ ∀ o ∈ os, Inside n o := by
  rcases hos with ⟨tag, slot, children, rfl, rfl⟩ | ⟨hslot, rfl⟩
  · obtain ⟨htag, -, hslot, -⟩ := h
    have hd := (hslot slot rfl).1
    obtain ⟨hopen, hopenBare⟩ := openEntry_own (p := p) htag hd
    obtain ⟨hshut, hshutStill⟩ := closeEntry_own (p := p) htag hd separated
    have hchildren := hn.children tag (some slot) children rfl
    have hsound := (Own.around htag hopen (fun o ho => (hopenBare o ho).1) hchildren hshut
      fun o ho o' _ => hopenBare.compatible ho o').1
    refine ⟨hsound, fun o ho => ⟨hsound.within o ho, ?_⟩⟩
    rintro - s e d rfl
    rcases List.mem_append.mp ho with ho | ho
    · rcases List.mem_append.mp ho with ho | ho
      · exact (hopenBare _ ho).1.elim
      · have hw := hchildren.within _ ho
        have hinner := htag.inner
        simp only [Within] at hw
        show tag.span.start < d
        omega
    · exact (hshutStill _ ho).elim
  · have hsound : Sound source p n.span.start n.span.stop
        (if n.isInsignificant then removeSpan n.span else render env .child n) := by
      split
      next hn' => exact (insignificant_sound h hn').1
      next => exact hn.sound .child
    exact ⟨hsound, fun o ho => ⟨hsound.within o ho, by simp [hslot]⟩⟩

theorem leaf_sound (hn : ∀ place, Sound source p n.span.start n.span.stop (render env place n))
    (ht : n.ownTag? = none) (hl : ∀ d parts body, n ≠ .loop d parts body) :
    NodeSound env source p n := by
  refine ⟨⟨hn, by simp [ht]⟩, ?_, fun d parts body heq => absurd heq (hl d parts body)⟩
  rintro tag slot children rfl
  cases ht

end

section
variable {env : Setting} {ok : Tag → Prop} (henv : env.source = source)
  (htidy : ∀ tag, ok tag → p → ∀ d ∈ tag.directives, Tidy source d)
include henv htidy

set_option linter.unusedSectionVars false in
mutual

theorem render_sound : (n : Node) → Formed source ok n → NodeSound env source p n
  | .element tag children, h =>
    element_sound henv h.1 (htidy tag h.2.1) (renderAll_sound children h.2.2 .child)
  | .component tag children, h =>
    component_sound henv h.1 (htidy tag h.2.1) h.2.2 (renderAll_sound children h.2.2 .child)
      (renderEntries_sound children h.2.2)
  | .container tag _ children, h =>
    container_sound h.1 h.2.2.2 (renderAll_sound children h.2.2.2 .child)
      (renderItems_sound children h.2.2.2)
  | .text s data, h =>
    leaf_sound (fun place => by rw [render]; exact renderText_sound h place) rfl (by simp)
  | .interpolation s, h =>
    leaf_sound (fun place => by rw [render]; exact renderInterpolation_sound h env henv place) rfl (by simp)
  | .comment s, h => leaf_sound (fun place => by rw [render]; exact removeSpan_sound h) rfl (by simp)
  | .group branches _, h =>
    group_sound h fun place => renderBranches_sound branches h.2.1 place none (by simp)
  | .loop _ _ body, h => loop_sound h (render_sound body h.1).toPlain

theorem renderAll_sound {lo hi : Nat} : (ns : List Node) → AllFormed source ok lo hi ns → ∀ place,
    AllSound Touches source p lo hi ns (renderAll env place ns)
  | [], _, _ => by
    rw [renderAll]
    exact .nil
  | n :: ns, ⟨hle, hn, hns⟩, place => by
    rw [renderAll]
    have hsound := (render_sound n hn).sound place
    exact .cons hle hn hns hsound hsound.within (renderAll_sound ns hns place)

theorem renderItems_sound {lo hi : Nat} : (ns : List Node) → AllFormed source ok lo hi ns →
    AllSound Touches source p lo hi ns (renderItems env ns)
  | [], _ => by
    rw [renderItems]
    exact .nil
  | n :: ns, ⟨hle, hn, hns⟩ => by
    rw [renderItems]
    have hsound : Sound source p n.span.start n.span.stop
        (if n.isInsignificant then removeSpan n.span else render env .expression n) := by
      split
      next hi => exact (insignificant_sound hn hi).1
      next => exact (render_sound n hn).sound .expression
    exact .cons hle hn hns hsound hsound.within (renderItems_sound ns hns)

theorem renderEntries_sound {lo hi : Nat} : (ns : List Node) → AllFormed source ok lo hi ns →
    ∀ separated, AllSound Inside source p lo hi ns (renderEntries env separated ns)
  | [], _, _ => by
    rw [renderEntries]
    exact .nil
  | n :: ns, ⟨hle, hn, hns⟩, separated => by
    have hnode := render_sound n hn
    obtain ⟨os, separated', hcons, hos⟩ := renderEntries_cons env separated n ns
    obtain ⟨hsound, hinside⟩ := entry_sound hn hnode hos
    rw [hcons]
    exact .cons hle hn hns hsound hinside (renderEntries_sound ns hns separated')

theorem renderBranches_sound {lo hi : Nat} : (bs : List Branch) → BranchesFormed source ok lo hi bs →
    ∀ place previous, (∀ s ∈ previous, source.isBoundary s.stop = true) →
      BranchesSound source p lo hi previous (renderBranches env place previous bs)
  | [], _, _, _, _ => by
    rw [renderBranches]
    exact ⟨by simp, by simp, .nil⟩
  | .mk kind d body :: bs, ⟨hle, hbody, hbranch, hbs⟩, place, previous, hprevious => by
    have hsound := branch_sound hbody (render_sound body hbody) hbranch
      (place = .child && previous.isNone)
    have hrest := renderBranches_sound bs hbs place (some body.span) fun s hs => by
      obtain rfl := Option.some.inj hs
      exact hbody.span.stop_at
    rw [renderBranches_cons]
    exact .cons hprevious hle hbody.span.lt hbs.le hsound hrest

end

end

end

end SfcTsx.View
