import SfcTsx.Proofs.View.Tags

namespace SfcTsx.View

open Markup Operation

variable {d : Directive}

/-- An edit for the guard that a directive is. -/
def GuardOf (tag : Tag) (d : Directive) : Operation → Prop
  | .prependRight n _ => ∃ c ∈ keptSpans d, n = c.start
  | .insertLeft n _ => n = tag.span.stop ∨ ∃ c ∈ keptSpans d, n = c.stop
  | .moveRange s e dest => (⟨s, e⟩ : Span) ∈ keptSpans d ∧ dest = tag.span.start
  | _ => False

structure Guards (p : Prop) (tag : Tag) (d : Directive) (os : List Operation) : Prop where
  mem : ∀ o ∈ os, GuardOf tag d o
  compatible : os.Pairwise (Compatible p)

section
variable {source : Text} {p : Prop} {tag : Tag}

theorem GuardOf.covers {o : Operation} (h : GuardOf tag d o) : o.covers = [] := by
  cases o <;> first | rfl | exact h.elim

theorem compatible_moves {c c' : Span} {a : Nat} (hc' : c'.start < c'.stop) (ha : a < c.start)
    (ha' : a < c'.start) (hap : c.stop ≤ c'.start ∨ c'.stop ≤ c.start) :
    Compatible p (.moveRange c.start c.stop a) (.moveRange c'.start c'.stop a) := by
  refine ⟨?_, fun _ r hr => by simp [Operation.covers] at hr⟩
  simp only [Orderly, Apart, Off]
  omega

theorem compatible_insert {o o' : Operation} (hc : o.covers = []) (hstill : o'.Still)
    (hc' : o'.covers = []) : Compatible p o o' := by
  refine ⟨?_, fun _ r hr => by simp [hc] at hr⟩
  cases o' with
  | overwrite s e t => simp [Operation.covers] at hc'
  | moveRange s e d => exact hstill.elim
  | _ => cases o <;> trivial

theorem guardCondition_guards (hname : d.name = "if" ∨ d.name = "else-if") (opens : Bool) :
    Guards p tag d (guardCondition d opens tag.span) := by
  have hkept : conditionSpan d ∈ keptSpans d := by
    rcases hname with hname | hname <;> simp [keptSpans, hname]
  have hbare : Bare (Operation.prependRight (conditionSpan d).start "(".toList ::
      ((if opens then [.prependRight (conditionSpan d).start "\x7b ".toList] else []) ++
        [.insertLeft (conditionSpan d).stop ") ? ".toList])) := by
    intro o ho
    simp only [List.mem_cons, List.mem_append, List.not_mem_nil, or_false] at ho
    rcases ho with rfl | ho | rfl
    · exact ⟨trivial, rfl⟩
    · split at ho
      · obtain rfl := List.mem_singleton.mp ho
        exact ⟨trivial, rfl⟩
      · cases ho
    · exact ⟨trivial, rfl⟩
  refine ⟨?_, ?_⟩
  · intro o ho
    simp only [guardCondition, List.mem_cons, List.mem_append, List.not_mem_nil, or_false] at ho
    rcases ho with rfl | ho | rfl | rfl
    · exact ⟨_, hkept, rfl⟩
    · split at ho
      · obtain rfl := List.mem_singleton.mp ho
        exact ⟨_, hkept, rfl⟩
      · cases ho
    · exact .inr ⟨_, hkept, rfl⟩
    · exact ⟨hkept, rfl⟩
  · have hmove := hbare.pairwise_append (p := p) (List.pairwise_singleton _
      (.moveRange (conditionSpan d).start (conditionSpan d).stop tag.span.start))
    simpa [guardCondition] using hmove

theorem Loop.params_spans (l : Loop) : (l.params.zip aliasNames).filterMap Prod.fst =
    l.value.toList ++ l.key.toList ++ l.index.toList := by
  obtain ⟨list, value, key, index⟩ := l
  cases value <;> cases key <;> cases index <;> rfl

section
variable (h : TagPlaced source tag) (hd : d ∈ tag.directives)
include h hd

theorem TagPlaced.guard_span {c : Span} (hc : c ∈ keptSpans d) :
    SpanPlaced source c ∧ tag.span.start < c.start ∧ c.stop < tag.span.stop := by
  obtain ⟨hplaced, hlo, hhi⟩ := h.directive hd
  obtain ⟨hp, h₁, h₂⟩ := hplaced.keptSpans_within c hc
  have := h.name_start
  have := h.name_stop
  have := h.stop_le
  exact ⟨hp, by omega, by omega⟩

theorem Guards.sound {os : List Operation} (hg : Guards p tag d os) :
    Sound source p tag.span.start tag.span.stop os := by
  have hspan := h.span
  have hlt := hspan.lt
  refine ⟨fun o ho => ?_, fun o ho => ?_, hg.compatible⟩
  · have hguard := hg.mem o ho
    cases o with
    | prependRight n t =>
      obtain ⟨c, hc, rfl⟩ := hguard
      obtain ⟨hp, h₁, h₂⟩ := h.guard_span hd hc
      have := hp.lt
      simp only [Within]
      omega
    | insertLeft n t =>
      simp only [Within]
      rcases hguard with rfl | ⟨c, hc, rfl⟩
      · omega
      · obtain ⟨hp, h₁, h₂⟩ := h.guard_span hd hc
        have := hp.lt
        omega
    | moveRange s e dest =>
      obtain ⟨hc, rfl⟩ := hguard
      obtain ⟨hp, h₁, h₂⟩ := h.guard_span hd hc
      have hse := hp.lt
      simp only at h₁ h₂ hse
      simp only [Within]
      omega
    | _ => exact hguard.elim
  · have hguard := hg.mem o ho
    cases o with
    | prependRight n t =>
      obtain ⟨c, hc, rfl⟩ := hguard
      simpa [Operation.offsets] using (h.guard_span hd hc).1.start_at
    | insertLeft n t =>
      rcases hguard with rfl | ⟨c, hc, rfl⟩
      · simpa [Operation.offsets] using hspan.stop_at
      · simpa [Operation.offsets] using (h.guard_span hd hc).1.stop_at
    | moveRange s e dest =>
      obtain ⟨hc, rfl⟩ := hguard
      have hp := (h.guard_span hd hc).1
      simpa [Operation.offsets] using ⟨hp.start_at, hp.stop_at, hspan.start_at⟩
    | _ => exact hguard.elim

theorem GuardOf.compatible (hs : isStructural d = true) {o g : Operation}
    (hw : o.Within tag.span.start tag.span.stop) (ho : Yields tag o) (hg : GuardOf tag d g) :
    Compatible p o g := by
  have hkept : ∀ c ∈ keptSpans d, Kept tag c := fun c hc => ⟨d, hd, hs, hc⟩
  refine ⟨?_, fun _ r hr n hn => ?_⟩
  · cases o with
    | moveRange s e t =>
      cases g with
      | moveRange s' e' t' =>
        obtain ⟨hc, rfl⟩ := hg
        obtain ⟨hp, h₁, h₂⟩ := h.guard_span hd hc
        obtain ⟨-, hyield⟩ := ho _ (hkept _ hc)
        have hse := hp.lt
        simp only at h₁ h₂ hse hyield
        simp only [Orderly, Apart, Off]
        omega
      | overwrite s' e' t' => exact hg.elim
      | _ => trivial
    | _ => trivial
  · have hr' := hw.covers r hr
    cases g with
    | prependRight m t =>
      obtain ⟨c, hc, rfl⟩ := hg
      obtain rfl : n = c.start := by simpa [Operation.offsets] using hn
      have := ((ho c (hkept c hc)).1 r hr).1
      omega
    | insertLeft m t =>
      obtain rfl : n = m := by simpa [Operation.offsets] using hn
      rcases hg with rfl | ⟨c, hc, rfl⟩
      · omega
      · have := ((ho c (hkept c hc)).1 r hr).2
        omega
    | moveRange s e t =>
      obtain ⟨hc, rfl⟩ := hg
      have hc := (ho _ (hkept _ hc)).1 r hr
      simp only at hc
      obtain rfl | rfl | rfl : n = s ∨ n = e ∨ n = tag.span.start := by
        simpa [Operation.offsets] using hn
      · omega
      · omega
      · omega
    | _ => exact hg.elim

theorem GuardOf.compatible_guard {d' : Directive} (hd' : d' ∈ tag.directives) (hne : d ≠ d')
    {g g' : Operation} (hg : GuardOf tag d g) (hg' : GuardOf tag d' g') : Compatible p g g' := by
  refine ⟨?_, fun _ r hr => by simp [hg.covers] at hr⟩
  cases g with
  | moveRange s e t =>
    cases g' with
    | moveRange s' e' t' =>
      obtain ⟨hc, rfl⟩ := hg
      obtain ⟨hc', rfl⟩ := hg'
      obtain ⟨hp, h₁, -⟩ := h.guard_span hd hc
      obtain ⟨hp', h₁', -⟩ := h.guard_span hd' hc'
      obtain ⟨-, hlo, hhi⟩ := (h.directive hd).1.keptSpans_within _ hc
      obtain ⟨-, hlo', hhi'⟩ := (h.directive hd').1.keptSpans_within _ hc'
      have hap : d.span.stop ≤ d'.span.start ∨ d'.span.stop ≤ d.span.start :=
        h.apart (mem_attrs_of_directive hd) (mem_attrs_of_directive hd')
          fun heq => hne (Attr.directive.inj heq)
      exact (compatible_moves (p := True) hp'.lt h₁ h₁' (by omega)).1
    | overwrite s' e' t' => exact hg'.elim
    | _ => trivial
  | _ => trivial

theorem moveAliases_guards (env : Setting) {ps : List (Option Span × String)} {last : Span}
    (hlast : last ∈ keptSpans d) (hkept : ∀ s ∈ ps.filterMap Prod.fst, s ∈ keptSpans d)
    (hap : (ps.filterMap Prod.fst).Pairwise fun s t => s.stop ≤ t.start) :
    Guards p tag d (moveAliases env tag.span last ps) ∧
      ∀ o ∈ moveAliases env tag.span last ps, (o.Still ∧ o.covers = []) ∨
        ∃ s ∈ ps.filterMap Prod.fst, o = .moveRange s.start s.stop tag.span.start := by
  induction ps generalizing last with
  | nil => exact ⟨⟨by simp [moveAliases], .nil⟩, by simp [moveAliases]⟩
  | cons p rest ih =>
    obtain ⟨param, name⟩ := p
    cases param with
    | none =>
      simp only [moveAliases]
      obtain ⟨hguards, hops⟩ := ih hlast (by simpa using hkept) (by simpa using hap)
      refine ⟨⟨fun o ho => ?_, ?_⟩, fun o ho => ?_⟩
      · rcases List.mem_cons.mp ho with rfl | ho
        · exact .inr ⟨last, hlast, rfl⟩
        · exact hguards.mem o ho
      · exact .cons (fun o' _ => Still.compatible_of_covers trivial rfl) hguards.compatible
      · rcases List.mem_cons.mp ho with rfl | ho
        · exact .inl ⟨trivial, rfl⟩
        · simpa using hops o ho
    | some s =>
      simp only [moveAliases]
      have hspans : ((some s, name) :: rest).filterMap Prod.fst = s :: rest.filterMap Prod.fst := rfl
      rw [hspans] at hkept hap ⊢
      obtain ⟨hs, hap⟩ := List.pairwise_cons.mp hap
      have hmem := hkept s (by simp)
      obtain ⟨hguards, hops⟩ := ih hmem (fun t ht => hkept t (by simp [ht])) hap
      refine ⟨⟨fun o ho => ?_, ?_⟩, fun o ho => ?_⟩
      · rcases List.mem_cons.mp ho with rfl | ho
        · exact .inr ⟨s, hmem, rfl⟩
        · rcases List.mem_cons.mp ho with rfl | ho
          · exact ⟨hmem, rfl⟩
          · exact hguards.mem o ho
      · refine .cons (fun o' _ => Still.compatible_of_covers trivial rfl) (.cons (fun o ho => ?_)
          hguards.compatible)
        rcases hops o ho with ⟨hstill, hc⟩ | ⟨t, ht, rfl⟩
        · exact compatible_insert rfl hstill hc
        · obtain ⟨-, h₁, -⟩ := h.guard_span hd hmem
          obtain ⟨hp, h₂, -⟩ := h.guard_span hd (hkept t (by simp [ht]))
          exact compatible_moves hp.lt h₁ h₂ (.inl (hs t ht))
      · rcases List.mem_cons.mp ho with rfl | ho
        · exact .inl ⟨trivial, rfl⟩
        · rcases List.mem_cons.mp ho with rfl | ho
          · exact .inr ⟨s, by simp, rfl⟩
          · rcases hops o ho with hbare | ⟨t, ht, rfl⟩
            · exact .inl hbare
            · exact .inr ⟨t, by simp [ht], rfl⟩

theorem TagPlaced.guardLoop_guards (env : Setting) (hname : d.name = "for") {exp : Value}
    (hexp : expression? d = some exp) {parts : Option Loop}
    (hparts : parts = Loop.parse? exp.content exp.span.start) (braces : Bool) :
    Guards p tag d (guardLoop env d parts tag.span braces) := by
  -- what the loop runs over is kept, and so are the aliases in front of it
  obtain ⟨list, hlist, hkept, hparams, hap, hbefore⟩ : ∃ list, loopSource? d parts = some list ∧
      list ∈ keptSpans d ∧
      (∀ s ∈ (((parts.map Loop.params).getD []).zip aliasNames).filterMap Prod.fst, s ∈ keptSpans d) ∧
      ((((parts.map Loop.params).getD []).zip aliasNames).filterMap Prod.fst).Pairwise
        (fun s t => s.stop ≤ t.start) ∧
      ∀ s ∈ (((parts.map Loop.params).getD []).zip aliasNames).filterMap Prod.fst,
        s.stop ≤ list.start := by
    cases hloop : Loop.parse? exp.content exp.span.start with
    | none =>
      rw [hloop] at hparts
      subst hparts
      have hkept : keptSpans d = [exp.span] := by simp [keptSpans, hname, hexp, hloop]
      exact ⟨exp.span, by simp [loopSource?, hexp], by simp [hkept], by simp, by simp, by simp⟩
    | some l =>
      rw [hloop] at hparts
      subst hparts
      have hkept : keptSpans d = l.spans := by simp [keptSpans, hname, hexp, hloop]
      obtain ⟨hvalue, -⟩ := (h.directive hd).1.expression hexp
      obtain ⟨rest, hat⟩ := hvalue.text
      have hrow := (Loop.parse?_row hloop hat).2
      have hspans : l.row = ((((some l).map Loop.params).getD []).zip aliasNames).filterMap Prod.fst ++
          [l.source] := by
        rw [Option.map_some, Option.getD_some, Loop.params_spans, Loop.row, List.append_assoc,
          List.append_assoc]
      rw [hspans] at hrow
      obtain ⟨h₁, -, h₂⟩ := List.pairwise_append.mp hrow
      refine ⟨l.source, rfl, ?_, ?_, h₁, fun s hs => h₂ s hs l.source (by simp)⟩
      · rw [hkept, Loop.mem_spans, hspans]
        simp
      · intro s hs
        rw [hkept, Loop.mem_spans, hspans]
        exact List.mem_append_left _ hs
  obtain ⟨haliases, hops⟩ := moveAliases_guards (p := p) h hd env hkept hparams hap
  unfold guardLoop
  rw [hlist]
  dsimp only
  refine ⟨fun o ho => ?_, ?_⟩
  · simp only [List.mem_append, List.mem_cons, List.not_mem_nil, or_false] at ho
    rcases ho with ((rfl | rfl | rfl) | ho) | rfl
    · exact ⟨list, hkept, rfl⟩
    · exact .inr ⟨list, hkept, rfl⟩
    · exact ⟨hkept, rfl⟩
    · exact haliases.mem o ho
    · exact .inl rfl
  · refine List.pairwise_append.mpr ⟨?_, List.pairwise_singleton _ _, ?_⟩
    · refine .cons (fun o' _ => Still.compatible_of_covers trivial rfl) (.cons
        (fun o' _ => Still.compatible_of_covers trivial rfl) (.cons (fun o ho => ?_) haliases.compatible))
      rcases hops o ho with ⟨hstill, hc⟩ | ⟨t, ht, rfl⟩
      · exact compatible_insert rfl hstill hc
      · obtain ⟨-, h₁, -⟩ := h.guard_span hd hkept
        obtain ⟨hp, h₂, -⟩ := h.guard_span hd (hparams t ht)
        exact compatible_moves hp.lt h₁ h₂ (.inr (hbefore t ht))
    · intro o ho o' ho'
      obtain rfl := List.mem_singleton.mp ho'
      refine compatible_insert ?_ trivial rfl
      simp only [List.mem_append, List.mem_cons, List.not_mem_nil, or_false] at ho
      rcases ho with (rfl | rfl | rfl) | ho
      · rfl
      · rfl
      · rfl
      · exact (haliases.mem o ho).covers

end

end

end SfcTsx.View
