import SfcTsx.Proofs.EditBuffer.Accepted
import SfcTsx.Proofs.View.Loop
import SfcTsx.View.Render

namespace SfcTsx

variable {m : Nat} {d : Directive} {lo hi : Nat} {x : Span}

namespace Operation

/-- The edit changes nothing outside of two offsets. A move leaves the first and the last character
between them in place. -/
def Within (a b : Nat) : Operation → Prop
  | .insertLeft n _ => a < n ∧ n ≤ b
  | .prependRight n _ => a ≤ n ∧ n < b
  | .remove s e => a ≤ s ∧ s ≤ e ∧ e ≤ b
  | .overwrite s e _ => a ≤ s ∧ s < e ∧ e ≤ b
  | .moveRange s e d => a < s ∧ s < e ∧ e < b ∧ a ≤ d ∧ d < b ∧ (d < s ∨ e < d)
  | _ => False

/-- The two edits can be made in this order: the first one does not break up what the second one moves
or replaces and, if `p` holds, the second one cuts nothing that the first one replaced. -/
def Compatible (p : Prop) (o o' : Operation) : Prop := Orderly o o' ∧ (p → Spares o o')

def Still : Operation → Prop
  | .insertLeft .. | .prependRight .. => True
  | .remove s e => s ≤ e
  | .overwrite s e _ => s < e
  | _ => False

def Beside (lo hi : Nat) (o : Operation) : Prop :=
  (∀ n ∈ o.offsets, n ≤ lo ∨ hi ≤ n) ∧
    match o with
    | .overwrite s e _ | .moveRange s e _ => e ≤ lo ∨ hi ≤ s
    | _ => True

section
variable {a b a' b' : Nat} {o o' : Operation} {p : Prop}

theorem Within.mono (h : o.Within a b) (ha : a' ≤ a) (hb : b ≤ b') : o.Within a' b' := by
  cases o <;> simp only [Within] at h ⊢ <;> omega

theorem Within.offsets (h : o.Within a b) : ∀ n ∈ o.offsets, a ≤ n ∧ n ≤ b := by
  cases o <;> simp [Within] at h <;> simp [Operation.offsets] <;> omega

theorem Within.covers (h : o.Within a b) : ∀ r ∈ o.covers, a ≤ r.start ∧ r.stop ≤ b := by
  cases o <;> simp [Within] at h <;> simp [Operation.covers]
  omega

theorem Still.within (h : o.Still) (ho : ∀ n ∈ o.offsets, a < n ∧ n < b) : o.Within a b := by
  cases o <;> simp [Still] at h <;> simp [Operation.offsets] at ho <;> simp only [Within] <;> omega

theorem Within.fits {source : Text} (h : o.Within a b) (hb : b ≤ source.size)
    (hbound : ∀ n ∈ o.offsets, source.isBoundary n = true) : o.Fits source := by
  refine ⟨hbound, ?_⟩
  cases o <;> simp only [Within] at h ⊢ <;> omega

theorem Still.orderly (h : o.Still) (o' : Operation) : Orderly o o' := by
  cases o with
  | moveRange s e d => exact h.elim
  | _ => trivial

theorem Still.compatible (h : o.Still)
    (hc : p → ∀ r ∈ o.covers, ∀ n ∈ o'.offsets, n ≤ r.start ∨ r.stop ≤ n) : Compatible p o o' :=
  ⟨h.orderly o', hc⟩

theorem Still.compatible_of_covers (h : o.Still) (hc : o.covers = []) : Compatible p o o' :=
  h.compatible (by simp [hc])

theorem Within.compatible_beside (h : o.Within a b) (h' : o'.Beside a b) : Compatible p o o' := by
  refine ⟨?_, fun _ r hr n hn => ?_⟩
  · obtain ⟨hn, h'⟩ := h'
    cases o with
    | moveRange s e d =>
      simp only [Within] at h
      cases o' with
      | moveRange s' e' d' =>
        have hs := hn s' (by simp [Operation.offsets])
        have he := hn e' (by simp [Operation.offsets])
        have hd := hn d' (by simp [Operation.offsets])
        simp only [Orderly, Apart, Off]
        omega
      | overwrite s' e' t =>
        simp only [Orderly, Apart]
        omega
      | _ => trivial
    | _ => trivial
  · have hr := h.covers r hr
    have hn := h'.1 n hn
    omega

theorem Within.beside (h : o.Within a b) (hd : b ≤ a' ∨ b' ≤ a) : o.Beside a' b' := by
  cases o <;> simp [Within] at h <;> simp [Beside, Operation.offsets] <;> omega

theorem Within.compatible (h : o.Within a b) (h' : o'.Within a' b') (hd : b ≤ a' ∨ b' ≤ a) :
    Compatible p o o' :=
  h.compatible_beside (h'.beside hd.symm)

theorem Still.compatible_between (hp : o.Still) (h : o.Beside a b)
    (h' : ∀ n ∈ o'.offsets, a ≤ n ∧ n ≤ b) : Compatible p o o' := by
  refine hp.compatible fun _ r hr n hn => ?_
  have hn := h' n hn
  cases o with
  | overwrite s e t =>
    obtain rfl : r = ⟨s, e⟩ := by simpa [Operation.covers] using hr
    have hside : e ≤ a ∨ b ≤ s := h.2
    simp only
    omega
  | _ => simp [Operation.covers] at hr

end

/-- Edits of a text that can be made one after the other. -/
structure Sound (source : Text) (p : Prop) (a b : Nat) (os : List Operation) : Prop where
  within : ∀ o ∈ os, o.Within a b
  boundary : ∀ o ∈ os, ∀ n ∈ o.offsets, source.isBoundary n = true
  compatible : os.Pairwise (Compatible p)

section
variable {source : Text} {p : Prop} {a b a' b' : Nat} {os os' : List Operation}

theorem Sound.nil : Sound source p a b [] := ⟨by simp, by simp, .nil⟩

theorem Sound.mono (h : Sound source p a b os) (ha : a' ≤ a) (hb : b ≤ b') :
    Sound source p a' b' os :=
  ⟨fun o ho => (h.within o ho).mono ha hb, h.boundary, h.compatible⟩

theorem Sound.append (h : Sound source p a b os) (h' : Sound source p a b os')
    (hc : ∀ o ∈ os, ∀ o' ∈ os', Compatible p o o') : Sound source p a b (os ++ os') := by
  refine ⟨?_, ?_, List.pairwise_append.mpr ⟨h.compatible, h'.compatible, hc⟩⟩
  · intro o ho
    exact (List.mem_append.mp ho).elim (h.within o) (h'.within o)
  · intro o ho
    exact (List.mem_append.mp ho).elim (h.boundary o) (h'.boundary o)

theorem Sound.append_apart {m' : Nat} (h : Sound source p a m os) (h' : Sound source p m' b os')
    (ha : a ≤ m') (hm : m ≤ m') (hb : m ≤ b) : Sound source p a b (os ++ os') :=
  (h.mono (Nat.le_refl a) hb).append (h'.mono ha (Nat.le_refl b)) fun o ho o' ho' =>
    (h.within o ho).compatible (h'.within o' ho') (.inl hm)

end

end Operation

namespace View

open Markup Operation

variable {o : Operation} {os os' : List Operation} {v exp : Value}

theorem mem_removeGaps {stop cursor : Nat} {ss : List Span} (h : o ∈ removeGaps stop cursor ss) :
    ∃ s e, o = .remove s e ∧ s < e ∧ (s = cursor ∨ ∃ k ∈ ss, s = k.stop) ∧
      (e = stop ∨ ∃ k ∈ ss, e = k.start) := by
  induction ss generalizing cursor with
  | nil =>
    rw [removeGaps] at h
    split at h
    next hlt =>
      obtain rfl := List.mem_singleton.mp h
      exact ⟨cursor, stop, rfl, hlt, .inl rfl, .inl rfl⟩
    next => cases h
  | cons k ks ih =>
    rw [removeGaps] at h
    rcases List.mem_append.mp h with h | h
    · split at h
      next hlt =>
        obtain rfl := List.mem_singleton.mp h
        exact ⟨cursor, k.start, rfl, hlt, .inl rfl, .inr ⟨k, by simp, rfl⟩⟩
      next => cases h
    · obtain ⟨s, e, rfl, hlt, hs, he⟩ := ih h
      refine ⟨s, e, rfl, hlt, ?_, ?_⟩
      · rcases hs with rfl | ⟨k', hk', rfl⟩
        · rcases Nat.le_total cursor k.stop with hle | hle
          · exact .inr ⟨k, by simp, Nat.max_eq_right hle⟩
          · exact .inl (Nat.max_eq_left hle)
        · exact .inr ⟨k', by simp [hk'], rfl⟩
      · rcases he with rfl | ⟨k', hk', rfl⟩
        · exact .inl rfl
        · exact .inr ⟨k', by simp [hk'], rfl⟩

theorem mem_removeExcept {range : Span} {kept : List Span} (h : o ∈ removeExcept range kept) :
    ∃ s e, o = .remove s e ∧ s < e ∧ (s = range.start ∨ ∃ k ∈ kept, s = k.stop) ∧
      (e = range.stop ∨ ∃ k ∈ kept, e = k.start) := by
  obtain ⟨s, e, rfl, hlt, hs, he⟩ := mem_removeGaps h
  have hmem : ∀ k ∈ sortOn Span.start (kept.filter range.containsSpan), k ∈ kept :=
    fun k hk => List.mem_of_mem_filter (mem_sortOn.mp hk)
  exact ⟨s, e, rfl, hlt, hs.imp_right fun ⟨k, hk, h⟩ => ⟨k, hmem k hk, h⟩,
    he.imp_right fun ⟨k, hk, h⟩ => ⟨k, hmem k hk, h⟩⟩

theorem keptSpans_of_lacksCondition (h : lacksCondition d = true) : keptSpans d = [d.nameSpan] := by
  simp only [lacksCondition, Bool.and_eq_true, Bool.or_eq_true, beq_iff_eq, Option.isNone_iff_eq_none] at h
  obtain ⟨hname | hname, hexp⟩ := h <;> simp [keptSpans, conditionSpan, hname, hexp]

theorem spaceStart_le (source : Text) (n : Nat) : spaceStart source n ≤ n := Nat.sub_le _ _

section
variable {source : Text} {p : Prop}

/-- Edits in place, one behind the other between two offsets. -/
def Successive (source : Text) (lo hi : Nat) : List Operation → Prop
  | [] => lo ≤ hi
  | o :: os => ∃ mid, lo ≤ mid ∧ o.Still ∧
    (∀ n ∈ o.offsets, lo ≤ n ∧ n ≤ mid ∧ source.isBoundary n = true) ∧ Successive source mid hi os

theorem Successive.mono {lo' : Nat} (h : Successive source lo hi os) (hle : lo' ≤ lo) :
    Successive source lo' hi os := by
  cases os with
  | nil => exact Nat.le_trans hle h
  | cons o os =>
    obtain ⟨mid, hmid, hstill, ho, hos⟩ := h
    refine ⟨mid, by omega, hstill, fun n hn => ?_, hos⟩
    obtain ⟨h₁, h₂⟩ := ho n hn
    exact ⟨by omega, h₂⟩

theorem Successive.append (h : Successive source lo m os)
    (h' : Successive source m hi os') : Successive source lo hi (os ++ os') := by
  induction os generalizing lo with
  | nil => exact h'.mono h
  | cons o os ih =>
    obtain ⟨n, hn, hstill, ho, hos⟩ := h
    exact ⟨n, hn, hstill, ho, ih hos⟩

theorem Successive.cons (h : Successive source lo m [o]) (h' : Successive source m hi os) :
    Successive source lo hi (o :: os) := h.append h'

theorem Successive.widen {hi' : Nat} (h : Successive source lo hi os) (hle : hi ≤ hi') :
    Successive source lo hi' os := by
  rw [← List.append_nil os]
  exact h.append hle

theorem Successive.mem (h : Successive source lo hi os) :
    lo ≤ hi ∧ ∀ o ∈ os, o.Still ∧ ∀ n ∈ o.offsets, lo ≤ n ∧ n ≤ hi ∧ source.isBoundary n = true := by
  induction os generalizing lo with
  | nil => exact ⟨h, by simp⟩
  | cons o' os ih =>
    obtain ⟨mid, hmid, hstill, ho', hos⟩ := h
    obtain ⟨hle, hall⟩ := ih hos
    refine ⟨by omega, fun o ho => ?_⟩
    rcases List.mem_cons.mp ho with rfl | ho
    · refine ⟨hstill, fun n hn => ?_⟩
      obtain ⟨h₁, h₂, h₃⟩ := ho' n hn
      exact ⟨h₁, by omega, h₃⟩
    · refine ⟨(hall o ho).1, fun n hn => ?_⟩
      obtain ⟨h₁, h₂⟩ := (hall o ho).2 n hn
      exact ⟨by omega, h₂⟩

theorem mem_offsets_of_covers {r : Span} (h : r ∈ o.covers) :
    r.start ∈ o.offsets ∧ r.stop ∈ o.offsets := by
  cases o <;> simp_all [Operation.covers, Operation.offsets]

theorem Successive.pairwise (h : Successive source lo hi os) : os.Pairwise (Compatible p) := by
  induction os generalizing lo with
  | nil => exact .nil
  | cons o os ih =>
    obtain ⟨mid, hmid, hstill, ho, hos⟩ := h
    refine .cons (fun o' ho' => hstill.compatible fun _ r hr n hn => .inr ?_) (ih hos)
    have hstop := ho _ (mem_offsets_of_covers hr).2
    have hn := (hos.mem.2 o' ho').2 n hn
    omega

/-- An edit of an attribute, with the white space in front of it. -/
structure Local (source : Text) (x : Span) (o : Operation) : Prop where
  still : o.Still
  offsets : ∀ n ∈ o.offsets, n = spaceStart source x.start ∨ x.start ≤ n ∧ n ≤ x.stop
  covers : ∀ r ∈ o.covers, x.start ≤ r.start ∧ r.stop ≤ x.stop
  boundary : ∀ n ∈ o.offsets, source.isBoundary n = true

structure Tended (source : Text) (p : Prop) (x : Span) (os : List Operation) : Prop where
  mem : ∀ o ∈ os, Local source x o
  compatible : os.Pairwise (Compatible p)

theorem Tended.nil : Tended source p x [] := ⟨by simp, .nil⟩

theorem Tended.append (h : Tended source p x os) (h' : Tended source p x os')
    (hc : ∀ o ∈ os, ∀ o' ∈ os', Compatible p o o') : Tended source p x (os ++ os') :=
  ⟨fun o ho => (List.mem_append.mp ho).elim (h.mem o) (h'.mem o),
    List.pairwise_append.mpr ⟨h.compatible, h'.compatible, hc⟩⟩

theorem Successive.tended (h : Successive source x.start x.stop os) : Tended source p x os := by
  refine ⟨fun o ho => ?_, h.pairwise⟩
  obtain ⟨hstill, hn⟩ := h.mem.2 o ho
  refine ⟨hstill, fun n h => .inr ⟨(hn n h).1, (hn n h).2.1⟩, fun r hr => ?_, fun n h => (hn n h).2.2⟩
  obtain ⟨h₁, h₂⟩ := mem_offsets_of_covers hr
  exact ⟨(hn _ h₁).1, (hn _ h₂).2.1⟩

theorem put_successive {start stop : Nat} {text : Text} (hle : start ≤ stop)
    (hstart : source.isBoundary start = true) (hstop : source.isBoundary stop = true) :
    Successive source start stop (put start stop text) := by
  unfold put
  split
  next hlt =>
    refine ⟨stop, hle, hlt, ?_, Nat.le_refl _⟩
    intro n hn
    obtain rfl | rfl : n = start ∨ n = stop := by simpa [Operation.offsets] using hn
    · exact ⟨Nat.le_refl _, hle, hstart⟩
    · exact ⟨hle, Nat.le_refl _, hstop⟩
  next =>
    refine ⟨start, Nat.le_refl _, trivial, ?_, hle⟩
    intro n hn
    obtain rfl : n = start := by simpa [Operation.offsets] using hn
    exact ⟨Nat.le_refl _, Nat.le_refl _, hstart⟩

theorem Successive.single (hle : lo ≤ hi) (hstill : o.Still)
    (ho : ∀ n ∈ o.offsets, lo ≤ n ∧ n ≤ hi ∧ source.isBoundary n = true) :
    Successive source lo hi [o] :=
  ⟨hi, hle, hstill, ho, Nat.le_refl hi⟩

theorem insertion_successive {n : Nat} (hstill : o.Still) (ho : o.offsets = [n]) (hlo : lo ≤ n)
    (hhi : n ≤ hi) (hn : source.isBoundary n = true) : Successive source lo hi [o] := by
  refine .single (by omega) hstill fun m hm => ?_
  obtain rfl : m = n := by simpa [ho] using hm
  exact ⟨hlo, hhi, hn⟩

theorem overwrite_successive {s e : Nat} {text : Text} (hlo : lo ≤ s) (hlt : s < e) (hhi : e ≤ hi)
    (hs : source.isBoundary s = true) (he : source.isBoundary e = true) :
    Successive source lo hi [.overwrite s e text] := by
  refine .single (by omega) hlt fun n hn => ?_
  obtain rfl | rfl : n = s ∨ n = e := by simpa [Operation.offsets] using hn
  · exact ⟨hlo, by omega, hs⟩
  · exact ⟨by omega, hhi, he⟩

theorem ValuePlaced.boundary (h : ValuePlaced source lo hi v) :
    source.isBoundary v.span.start = true ∧ source.isBoundary v.span.stop = true := by
  obtain ⟨rest, hat⟩ := h.text
  exact ⟨hat.isBoundary, h.stop_eq ▸ hat.skip.isBoundary⟩

theorem ValuePlaced.le (h : ValuePlaced source lo hi v) :
    lo < v.span.start ∧ v.span.start ≤ v.span.stop ∧ v.span.stop ≤ hi := by
  have := h.stop_eq
  have := h.fits
  omega

theorem braceValue_successive {before behind : Text} (h : ValuePlaced source lo hi v)
    (hhi : source.isBoundary hi = true) :
    Successive source lo hi (braceValue source v before behind) := by
  obtain ⟨hstart, hstop⟩ := h.boundary
  have hle := h.le
  unfold braceValue
  rcases h.fits with ⟨hq, hlo, hend, hquote⟩ | ⟨hq, hlo, hlt, hend⟩
  · rw [if_pos hq]
    subst hend
    refine Successive.cons (m := v.span.start)
      (overwrite_successive (by omega) (by omega) (by omega) hquote hstart) ?_
    exact overwrite_successive (by omega) (by omega) (by omega) hstop hhi
  · rw [if_neg (by simp [hq])]
    refine Successive.cons (m := v.span.start) ?_ ?_
    · exact insertion_successive trivial rfl (by omega) (Nat.le_refl _) hstart
    · exact insertion_successive trivial rfl (by omega) (by omega) hstop

theorem quoteAttribute_successive {a : Attribute} (h : AttrPlaced source a.span a.nameSpan a.value) :
    Successive source a.span.start a.span.stop (quoteAttribute source a) ∧
      ∀ o ∈ quoteAttribute source a, o.covers = [] := by
  have hname := h.name_pos
  have hle := h.name_le
  have hnil : Successive source a.span.start a.span.stop [] := by
    show a.span.start ≤ a.span.stop
    omega
  unfold quoteAttribute
  split
  next v hv =>
    split
    · exact ⟨hnil, by simp⟩
    · have hvalue := h.placed v hv
      obtain ⟨hstart, hstop⟩ := hvalue.boundary
      have := hvalue.le
      refine ⟨Successive.cons (m := v.span.start) ?_ ?_, by simp [Operation.covers]⟩
      · exact insertion_successive trivial rfl (by omega) (Nat.le_refl _) hstart
      · exact insertion_successive trivial rfl (by omega) (by omega) hstop
  next => exact ⟨hnil, by simp⟩

theorem expression?_eq_some (h : expression? d = some exp) :
    d.exp = some exp ∧ exp.content ≠ [] := by
  obtain ⟨hd, hblank⟩ := Option.filter_eq_some_iff.mp h
  refine ⟨hd, ?_⟩
  rintro heq
  rw [heq] at hblank
  cases hblank

theorem DirectivePlaced.expression (h : DirectivePlaced source d)
    (hexp : expression? d = some exp) : ValuePlaced source d.nameSpan.stop d.span.stop exp ∧
      SpanPlaced source exp.span := by
  obtain ⟨hd, hne⟩ := expression?_eq_some hexp
  have hvalue := h.attr.placed exp hd
  obtain ⟨hstart, hstop⟩ := hvalue.boundary
  have hpos := Text.size_pos hne
  have := hvalue.stop_eq
  exact ⟨hvalue, by omega, hstart, hstop⟩

section
variable {d : Directive} (h : DirectivePlaced source d)
include h

theorem DirectivePlaced.rename_successive (name : Text) :
    Successive source d.span.start d.nameSpan.stop (rename d name) := by
  have hname := h.attr.name_pos
  unfold rename
  split
  · exact Nat.le_of_lt hname
  · rw [h.attr.start_eq]
    exact overwrite_successive (Nat.le_refl _) hname (Nat.le_refl _) h.attr.start_at h.attr.name_at

theorem DirectivePlaced.spreadComputed_successive {arg : DirectiveArg} (harg : d.arg = some arg) :
    Successive source d.span.start d.span.stop (spreadComputed d arg) := by
  have hplaced := h.arg arg harg
  have := hplaced.start_ge
  have := hplaced.start_lt
  have := hplaced.stop_le
  have := h.attr.name_le
  have hhead : Successive source d.span.start arg.span.start
      (put d.span.start arg.span.start "\x7b...\x7b[".toList) :=
    put_successive (by omega) h.attr.start_at hplaced.start_at
  refine hhead.append (Successive.mono ?_ (by omega : arg.span.start ≤ arg.span.stop))
  split
  next exp hexp =>
    obtain ⟨hvalue, hspan⟩ := h.expression hexp
    have := hvalue.le
    exact (put_successive (by omega) hplaced.stop_at hspan.start_at).append
      (Successive.mono (put_successive (by omega) hspan.stop_at h.attr.stop_at) (by omega))
  next => exact put_successive (by omega) hplaced.stop_at h.attr.stop_at

theorem DirectivePlaced.span : SpanPlaced source d.span := by
  have := h.attr.name_pos
  have := h.attr.name_le
  exact ⟨by omega, h.attr.start_at, h.attr.stop_at⟩

theorem DirectivePlaced.nameSpan : SpanPlaced source d.nameSpan := by
  have hstart := h.attr.start_eq
  have := h.attr.name_pos
  exact ⟨by omega, hstart ▸ h.attr.start_at, h.attr.name_at⟩

theorem DirectivePlaced.keptSpans_within : SpansWithin source d.span.start d.span.stop (keptSpans d) := by
  have hname := h.attr.start_eq
  have hpos := h.attr.name_pos
  have hle := h.attr.name_le
  have hexp : ∀ exp, expression? d = some exp → SpansWithin source d.span.start d.span.stop [exp.span] := by
    intro exp hexp s hs
    obtain rfl := List.mem_singleton.mp hs
    obtain ⟨hvalue, hspan⟩ := h.expression hexp
    have := hvalue.le
    exact ⟨hspan, by omega, by omega⟩
  have hcondition : SpansWithin source d.span.start d.span.stop [conditionSpan d] := by
    unfold conditionSpan
    split
    next exp hd => exact hexp exp hd
    next =>
      intro s hs
      obtain rfl := List.mem_singleton.mp hs
      exact ⟨h.nameSpan, by omega, hle⟩
  unfold keptSpans
  split
  · exact hcondition
  · exact hcondition
  · split
    next exp hd =>
      split
      next parts hparts =>
        obtain ⟨hvalue, -⟩ := h.expression hd
        have := hvalue.le
        obtain ⟨rest, hat⟩ := hvalue.text
        have hrow := (Loop.parse?_row hparts hat).1
        rw [← hvalue.stop_eq] at hrow
        refine fun s hs => (hrow.mono (by omega) (by omega)) s ?_
        exact Loop.mem_spans.mp hs
      next => exact hexp exp hd
    next => simp [SpansWithin]
  · simp [SpansWithin]

variable (hspace : source.isBoundary (spaceStart source d.span.start) = true)
include hspace

theorem DirectivePlaced.removeAttr_tended (kept : List Span)
    (hkept : SpansWithin source d.span.start d.span.stop kept) :
    Tended source p d.span (removeAttr source d.span kept) ∧
      ∀ o ∈ removeAttr source d.span kept, o.covers = [] := by
  have hspan := h.span
  have hlt := hspan.lt
  have hcovers : ∀ o ∈ removeAttr source d.span kept, o.Still ∧ o.covers = [] := by
    intro o ho
    obtain ⟨s, e, rfl, hse, -⟩ := mem_removeExcept ho
    exact ⟨Nat.le_of_lt hse, rfl⟩
  refine ⟨⟨fun o ho => ?_, ?_⟩, fun o ho => (hcovers o ho).2⟩
  · obtain ⟨s, e, rfl, hse, hs, he⟩ := mem_removeExcept ho
    have hs' : (s = spaceStart source d.span.start ∨ d.span.start ≤ s ∧ s ≤ d.span.stop) ∧
        source.isBoundary s = true := by
      rcases hs with rfl | ⟨k, hk, rfl⟩
      · exact ⟨.inl rfl, hspace⟩
      · obtain ⟨hp, h₁, h₂⟩ := hkept k hk
        have := hp.lt
        exact ⟨.inr ⟨by omega, h₂⟩, hp.stop_at⟩
    have he' : (d.span.start ≤ e ∧ e ≤ d.span.stop) ∧ source.isBoundary e = true := by
      rcases he with rfl | ⟨k, hk, rfl⟩
      · exact ⟨⟨by simp only; omega, Nat.le_refl _⟩, hspan.stop_at⟩
      · obtain ⟨hp, h₁, h₂⟩ := hkept k hk
        have := hp.lt
        exact ⟨⟨h₁, by omega⟩, hp.start_at⟩
    refine ⟨Nat.le_of_lt hse, fun n hn => ?_, by simp [Operation.covers], fun n hn => ?_⟩
    · obtain rfl | rfl : n = s ∨ n = e := by simpa [Operation.offsets] using hn
      · exact hs'.1
      · exact .inr he'.1
    · obtain rfl | rfl : n = s ∨ n = e := by simpa [Operation.offsets] using hn
      · exact hs'.2
      · exact he'.2
  · exact List.pairwise_of_forall_mem_list fun o ho o' _ =>
      (hcovers o ho).1.compatible_of_covers (hcovers o ho).2

theorem DirectivePlaced.editDirective_tended (ofComponent : Bool) :
    Tended source p d.span (editDirective source ofComponent d) := by
  have hattr := h.attr
  have hname := hattr.start_eq
  have hpos := hattr.name_pos
  have hle := hattr.name_le
  have hnone : SpansWithin source d.span.start d.span.stop [] := by simp [SpansWithin]
  have hvalue : ∀ (name before behind : Text) (exp : Value), d.exp = some exp →
      Tended source p d.span (rename d name ++ braceValue source exp before behind) :=
    fun name before behind exp hexp => ((h.rename_successive name).append
      (braceValue_successive (hattr.placed exp hexp) hattr.stop_at)).tended
  have hrename : ∀ name : Text, Tended source p d.span (rename d name) := fun name =>
    ((h.rename_successive name).widen hle).tended
  have hcomputed : ∀ arg, d.arg = some arg → Tended source p d.span (spreadComputed d arg) :=
    fun arg harg => (h.spreadComputed_successive harg).tended
  have hobject : Tended source p d.span (spreadObject source d) := by
    unfold spreadObject
    split
    next exp hexp =>
      obtain ⟨hv, hspan⟩ := h.expression hexp
      have := hv.le
      exact ((put_successive (by omega) hattr.start_at hspan.start_at).append (Successive.mono
        (put_successive (by omega) hspan.stop_at hattr.stop_at) (by omega))).tended
    next => exact (h.removeAttr_tended hspace [] hnone).1
  have hmodel : Tended source p d.span (bindModel source d ofComponent) := by
    unfold bindModel
    dsimp only
    split
    next exp hexp => exact hvalue _ _ _ exp (expression?_eq_some hexp).1
    next => exact (h.removeAttr_tended hspace [] hnone).1
  have hbind : ∀ arg, Tended source p d.span (bindAttribute source d arg) := by
    intro arg
    unfold bindAttribute
    dsimp only
    split
    next exp hexp => exact hvalue _ _ _ exp hexp
    next => exact hrename _
  have hhandler : ∀ arg, Tended source p d.span (bindHandler source d arg) := by
    intro arg
    unfold bindHandler
    dsimp only
    split
    next exp hexp => exact hvalue _ _ _ exp (expression?_eq_some hexp).1
    next =>
      obtain ⟨hremove, hcovers⟩ := h.removeAttr_tended (p := p) hspace [d.nameSpan] (by
        intro s hs
        obtain rfl := List.mem_singleton.mp hs
        exact ⟨h.nameSpan, by omega, hle⟩)
      refine hremove.append (Successive.tended (overwrite_successive (by omega) (by omega) hle
        (hname ▸ hattr.start_at) hattr.name_at)) fun o ho o' _ => ?_
      exact (hremove.mem o ho).still.compatible_of_covers (hcovers o ho)
  unfold editDirective
  split
  · exact hobject
  · exact hobject
  next arg _ harg =>
    split
    · exact hcomputed arg harg
    · exact hbind arg
  next arg _ harg =>
    split
    · exact hcomputed arg harg
    · exact hhandler arg
  next arg _ harg =>
    split
    · exact hcomputed arg harg
    · exact hmodel
  · exact hmodel
  next =>
    unfold keepDirective
    split
    next exp hexp => exact hvalue _ _ _ exp hexp
    next =>
      rw [List.append_nil]
      exact hrename _

theorem DirectivePlaced.removeStructural_tended :
    Tended source p d.span (removeStructural source d) := by
  obtain ⟨hremove, -⟩ := h.removeAttr_tended (p := p) hspace _ h.keptSpans_within
  have hname := h.attr.start_eq
  have hpos := h.attr.name_pos
  have hle := h.attr.name_le
  unfold removeStructural fillCondition
  split
  next hlacks =>
    refine Tended.append (Successive.tended (overwrite_successive (by omega) (by omega) hle
      (hname ▸ h.attr.start_at) h.attr.name_at)) hremove fun o ho o' ho' => ?_
    obtain rfl := List.mem_singleton.mp ho
    -- the name is what is kept
    refine Still.compatible (by show d.nameSpan.start < d.nameSpan.stop; omega) fun _ r hr n hn => ?_
    obtain rfl : r = ⟨d.nameSpan.start, d.nameSpan.stop⟩ := by simpa [Operation.covers] using hr
    rw [keptSpans_of_lacksCondition hlacks] at ho'
    obtain ⟨s, e, rfl, -, hs, he⟩ := mem_removeExcept ho'
    have hspace := spaceStart_le source d.span.start
    simp only [List.mem_singleton, exists_eq_left] at hs he
    obtain rfl | rfl : n = s ∨ n = e := by simpa [Operation.offsets] using hn
    · simp only
      omega
    · simp only
      omega
  next => exact hremove

end

/-- A span that the guards of an element use. -/
def Kept (tag : Tag) (c : Span) : Prop :=
  ∃ d ∈ tag.directives, isStructural d = true ∧ c ∈ keptSpans d

/-- The edit leaves what guards use together, and in front of what it moves. -/
def Yields (tag : Tag) (o : Operation) : Prop :=
  ∀ c, Kept tag c →
    (∀ r ∈ o.covers, (c.start ≤ r.start ∨ r.stop ≤ c.start) ∧ (c.stop ≤ r.start ∨ r.stop ≤ c.stop)) ∧
    match o with
    | .moveRange s e d => (e ≤ c.start ∨ c.stop ≤ s) ∧ c.stop ≤ d ∧ tag.span.start < s
    | _ => True

/-- Edits of an element apart from its children. -/
structure Own (source : Text) (p : Prop) (tag : Tag) (os : List Operation) : Prop where
  sound : Sound source p tag.span.start tag.span.stop os
  yields : ∀ o ∈ os, Yields tag o
  beside : ∀ o ∈ os, o.Beside tag.inner.start tag.inner.stop

theorem inner_start (tag : Tag) : tag.inner.start = tag.startTag.stop := rfl

section
variable {tag : Tag} (h : TagPlaced source tag) {a : Attr}

include h

theorem TagPlaced.attr_span (ha : a ∈ tag.attrs) : SpanPlaced source a.span := by
  have hplaced := (h.placed a ha).1
  cases a with
  | plain a =>
    have hplaced : AttrPlaced source a.span a.nameSpan a.value := hplaced
    have := hplaced.name_pos
    have := hplaced.name_le
    exact ⟨by simp only [Attr.span]; omega, hplaced.start_at, hplaced.stop_at⟩
  | directive d => exact DirectivePlaced.span hplaced

theorem TagPlaced.spaceStart (ha : a ∈ tag.attrs) :
    tag.span.start < spaceStart source a.span.start ∧
      source.isBoundary (spaceStart source a.span.start) = true := by
  have hspace := h.le_spaceStart (h.attr_span ha).start_at (h.placed a ha).2.1
  have := h.name_start
  exact ⟨by omega, hspace.2.2⟩

theorem TagPlaced.kept {c : Span} (hc : Kept tag c) : SpanPlaced source c ∧
    tag.nameSpan.stop ≤ c.start ∧ c.stop < tag.startTag.stop := by
  obtain ⟨d, hd, -, hc⟩ := hc
  obtain ⟨hplaced, hlo, hhi⟩ := h.directive hd
  obtain ⟨hc, h₁, h₂⟩ := hplaced.keptSpans_within c hc
  exact ⟨hc, by omega, by omega⟩

theorem Local.within (ha : a ∈ tag.attrs) (ho : Local source a.span o) :
    o.Within tag.span.start tag.span.stop ∧ o.Beside tag.inner.start tag.inner.stop := by
  have hspace := h.spaceStart ha
  have hle := spaceStart_le source a.span.start
  have hlt := (h.attr_span ha).lt
  have hstop := (h.placed a ha).2.2
  have := h.stop_le
  have hinner := inner_start tag
  have hoffsets : ∀ n ∈ o.offsets, tag.span.start < n ∧ n < tag.startTag.stop := by
    intro n hn
    have := ho.offsets n hn
    omega
  refine ⟨ho.still.within fun n hn => ?_, fun n hn => ?_, ?_⟩
  · have := hoffsets n hn
    omega
  · have := hoffsets n hn
    omega
  · cases o with
    | overwrite s e t =>
      have := hoffsets e (by simp [Operation.offsets])
      simp only
      omega
    | moveRange s e d => exact ho.still.elim
    | _ => trivial

/-- Edits of two attributes go together. Removing an attribute takes the white space in front of it,
which must not be part of a text that is replaced. -/
theorem Local.compatible {b : Attr} {o' : Operation} (ha : a ∈ tag.attrs) (hb : b ∈ tag.attrs)
    (hne : a ≠ b) (ho : Local source a.span o) (ho' : Local source b.span o')
    (htidy : p → o.covers ≠ [] → ∃ d, a = .directive d ∧ Tidy source d) : Compatible p o o' := by
  refine ho.still.compatible fun ht r hr n hn => ?_
  obtain ⟨d, rfl, hd⟩ := htidy ht (List.ne_nil_of_mem hr)
  have hr := ho.covers r hr
  have hle := spaceStart_le source b.span.start
  rcases h.apart ha hb hne with hab | hba
  · have hplaced : DirectivePlaced source d := (h.placed _ ha).1
    have hspace : d.span.stop ≤ View.spaceStart source b.span.start :=
      hplaced.le_spaceStart hd (h.attr_span hb).start_at hab
    simp only [Attr.span] at hr
    have := ho'.offsets n hn
    omega
  · have := (h.attr_span hb).lt
    have := ho'.offsets n hn
    omega

theorem Local.yields (ha : a ∈ tag.attrs) (ho : Local source a.span o)
    (hne : ∀ d, a = .directive d → isStructural d = false) : Yields tag o := by
  rintro c ⟨d, hd, hs, hc⟩
  have hstill := ho.still
  refine ⟨fun r hr => ?_, by cases o <;> trivial⟩
  have hda : a ≠ .directive d := by
    intro had
    rw [hne d had] at hs
    cases hs
  have hr := ho.covers r hr
  have hap := h.apart ha (mem_attrs_of_directive hd) hda
  obtain ⟨hp, h₁, h₂⟩ := (h.directive hd).1.keptSpans_within c hc
  have := hp.lt
  simp only [Attr.span] at hap hr
  omega

end

end

end View
end SfcTsx
