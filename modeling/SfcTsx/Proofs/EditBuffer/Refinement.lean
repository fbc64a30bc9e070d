import SfcTsx.Proofs.EditBuffer.Gaps
import SfcTsx.Proofs.EditBuffer.Stroke

namespace SfcTsx

variable {b : EditBuffer} {g : Gaps}

def Gaps.stroke (g : Gaps) : Stroke → Gaps
  | .left offset f => g.editLeft offset f
  | .right offset f => g.editRight offset f
  | .range start stop text _ => (g.clear start stop).setContent start text

namespace EditBuffer

variable {p : Piece} {offset n : Nat} {ps : List Piece} {b' : EditBuffer} {f : Piece → Piece}
  {o : Operation}

/-- A piece and the gaps agree from the start of the piece to its end. -/
structure Shows (g : Gaps) (p : Piece) : Prop where
  intro : g.right p.start = p.intro
  outro : g.left p.stop = p.outro
  content : (g.content p.start).getD [] = p.replacement.getD []
  hidden : ∀ n, p.start ≤ n → n < p.stop → g.hidden n = p.replacement.isSome
  inside : ∀ n, p.start < n → n < p.stop →
    g.left n = [] ∧ g.right n = [] ∧ (g.content n).getD [] = []

/-- A buffer and the gaps agree everywhere. -/
structure Refines (b : EditBuffer) (g : Gaps) : Prop where
  intro : g.left 0 = b.intro
  outro : g.right b.source.size = b.outro
  content : (g.content b.source.size).getD [] = []
  shows : ∀ p ∈ b.pieces, Shows g p

/-- The walk visits the pieces in source order. -/
def InOrder (b : EditBuffer) : Prop := b.Visits (some b.first) b.pieces

theorem InOrder.cutAt (h : b.Laid) (hc : b.CanCut p offset) (ho : b.InOrder) :
    (b.cutAt p offset).InOrder := by
  have hv := h.visits_cutAt hc ho
  unfold InOrder
  rw [show (b.cutAt p offset).pieces = b.pieces.flatMap (cutting p offset) by rw [cutAt_eq],
    show (b.cutAt p offset).first = b.first by rw [cutAt_eq]]
  exact hv

theorem InOrder.painted (ho : b.InOrder) (hp : Painted f b b') : b'.InOrder := by
  unfold InOrder
  rw [hp.pieces, hp.first]
  exact hp.visits ho

theorem Shows.flatMap_cell (h : b.Laid) (hp : p ∈ b.pieces) (hne : p.source ≠ []) (hs : Shows g p) :
    (List.range' p.start p.source.size).flatMap (g.cell b.source) = p.render.bytes := by
  have hpos := Text.size_pos hne
  obtain ⟨k, hk⟩ : ∃ k, p.source.size = k + 1 := ⟨p.source.size - 1, by omega⟩
  have hstop : p.stop = p.start + k + 1 := by simp only [Piece.stop, hk]; omega
  obtain ⟨pre, post, hsrc, hpre⟩ := h.placed hp
  have hbytes : (List.range' p.start (k + 1)).flatMap (g.byteAt b.source) =
      if p.replacement.isSome then [] else p.source.bytes := by
    split_ifs with hr
    · refine List.flatMap_eq_nil_iff.mpr fun n hn => ?_
      obtain ⟨hlo, hhi⟩ := List.mem_range'_1.mp hn
      rw [Gaps.byteAt, hs.hidden n hlo (by omega), if_pos hr]
    · have hshow : ∀ n ∈ List.range' p.start (k + 1),
          g.byteAt b.source n = b.source.bytes[n]?.toList := by
        intro n hn
        obtain ⟨hlo, hhi⟩ := List.mem_range'_1.mp hn
        rw [Gaps.byteAt, hs.hidden n hlo (by omega), if_neg hr]
      rw [List.flatMap_congr hshow, Gaps.flatMap_getElem?, hsrc, Text.bytes_append,
        Text.bytes_append, List.append_assoc]
      have hlen : pre.bytes.length = p.start := by rw [Text.length_bytes, hpre]
      have hlen' : p.source.bytes.length = k + 1 := by rw [Text.length_bytes, hk]
      rw [← hlen, List.drop_left, ← hlen', List.take_left]
  rw [hk, Gaps.flatMap_cell _ _ _ _ fun n h1 h2 => hs.inside n h1 (by omega), hbytes, hs.intro,
    hs.content, ← hstop, hs.outro]
  cases hr : p.replacement with
  | none => simp [Piece.render, Piece.shown, hr]
  | some t => simp [Piece.render, Piece.shown, hr]

theorem flatMap_cell_of_tiles (ht : Tiles n ps) (hcell : ∀ p ∈ ps,
      (List.range' p.start p.source.size).flatMap (g.cell b.source) = p.render.bytes) :
    (List.range' n (Text.size (ps.flatMap Piece.source))).flatMap (g.cell b.source) =
      Text.bytes (ps.flatMap Piece.render) := by
  induction ps generalizing n with
  | nil => rfl
  | cons p ps ih =>
    obtain ⟨rfl, ht⟩ := ht
    have hrest := ih ht fun q hq => hcell q (by simp [hq])
    rw [List.flatMap_cons, List.flatMap_cons, Text.size_append, Text.bytes_append,
      ← List.range'_append_1, List.flatMap_append, hcell p (by simp)]
    rw [← hrest, Piece.stop]

theorem Refines.render_eq (h : b.Laid) (hs : b.source ≠ [])
    (ho : b.InOrder) (hr : b.Refines g) : b.render.bytes = g.render b.source := by
  have hcells := flatMap_cell_of_tiles h.tiles fun p hp =>
    Shows.flatMap_cell h hp (h.source_ne_nil hs hp) (hr.shows p hp)
  rw [h.text] at hcells
  rw [Gaps.render_eq, hcells, hr.intro, hr.outro, hr.content, render, Visits.output_eq ho]
  simp

theorem Shows.afterCut {q : Piece} (h : Shows g q) : Shows g (afterCut p offset q) :=
  ⟨by simpa using h.intro, by simpa using h.outro, by simpa using h.content,
    by simpa using h.hidden, by simpa using h.inside⟩

theorem Refines.cutAt (h : b.Laid) (hc : b.CanCut p offset)
    (hr : b.Refines g) : (b.cutAt p offset).Refines g := by
  have hlo := hc.lo
  have hhi := hc.hi
  obtain ⟨s, u, hp, hs, -, -, hcut⟩ := h.cutPiece_eq hc
  have hshow := hr.shows p hc.mem
  obtain ⟨hl, hrt, hct⟩ := hshow.inside offset hlo hhi
  have hstop : offset + u.size = p.stop := by
    rw [Piece.stop, hp, Text.size_append]
    omega
  have hframe : (b.cutAt p offset).intro = b.intro ∧ (b.cutAt p offset).outro = b.outro ∧
      (b.cutAt p offset).source = b.source := by
    rw [cutAt_eq]
    exact ⟨rfl, rfl, rfl⟩
  refine ⟨hframe.1 ▸ hr.intro, ?_, by rw [hframe.2.2]; exact hr.content, ?_⟩
  · rw [hframe.2.1, hframe.2.2]
    exact hr.outro
  intro r hmem
  rcases (h.mem_cutAt hc).mp hmem with rfl | rfl | ⟨q, hq, -, rfl⟩
  · rw [hcut]
    refine .afterCut ⟨hshow.intro, ?_, hshow.content, ?_, ?_⟩
    · simpa only [Piece.stop, hs] using hl
    · intro n h1 h2
      simp only [Piece.stop, hs] at h1 h2
      exact hshow.hidden n h1 (by omega)
    · intro n h1 h2
      simp only [Piece.stop, hs] at h1 h2
      exact hshow.inside n h1 (by omega)
  · rw [hcut]
    refine .afterCut ⟨hrt, ?_, ?_, ?_, ?_⟩
    · simpa only [Piece.stop, hstop] using hshow.outro
    · rw [hct]
      cases p.replacement <;> rfl
    · intro n h1 h2
      simp only [Piece.stop, hstop] at h1 h2
      simpa using hshow.hidden n (by omega) h2
    · intro n h1 h2
      simp only [Piece.stop, hstop] at h1 h2
      exact hshow.inside n (by omega) h2
  · exact .afterCut (hr.shows q hq)

section
variable {g : Gaps} {start stop : Nat} (h : Shows g p)
include h

theorem Shows.left (hn : n ≤ p.start ∨ p.stop ≤ n) (f : Text → Text) :
    Shows (g.editLeft n f) ((Stroke.left n f).paint p) := by
  have hinside : ∀ m, p.start < m → m < p.stop → (g.editLeft n f).left m = [] ∧
      (g.editLeft n f).right m = [] ∧ ((g.editLeft n f).content m).getD [] = [] := by
    intro m h1 h2
    have hne : m ≠ n := by omega
    simpa [Gaps.editLeft, hne] using h.inside m h1 h2
  have houtro : (g.editLeft n f).left p.stop = if p.stop = n then f p.outro else p.outro := by
    simp only [Gaps.editLeft, h.outro]
  unfold Stroke.paint
  split
  next hn => exact ⟨h.intro, houtro.trans (if_pos hn), h.content, h.hidden, hinside⟩
  next hn => exact ⟨h.intro, houtro.trans (if_neg hn), h.content, h.hidden, hinside⟩

theorem Shows.right (hn : n ≤ p.start ∨ p.stop ≤ n) (f : Text → Text) :
    Shows (g.editRight n f) ((Stroke.right n f).paint p) := by
  have hinside : ∀ m, p.start < m → m < p.stop → (g.editRight n f).left m = [] ∧
      (g.editRight n f).right m = [] ∧ ((g.editRight n f).content m).getD [] = [] := by
    intro m h1 h2
    have hne : m ≠ n := by omega
    simpa [Gaps.editRight, hne] using h.inside m h1 h2
  have hintro : (g.editRight n f).right p.start = if p.start = n then f p.intro else p.intro := by
    simp only [Gaps.editRight, h.intro]
  unfold Stroke.paint
  split
  next hn => exact ⟨hintro.trans (if_pos hn), h.outro, h.content, h.hidden, hinside⟩
  next hn => exact ⟨hintro.trans (if_neg hn), h.outro, h.content, h.hidden, hinside⟩

theorem Shows.range (hlt : start < stop) (hwide : p.start < p.stop)
    (hs : start ≤ p.start ∨ p.stop ≤ start) (ht : stop ≤ p.start ∨ p.stop ≤ stop) (text : Text) :
    Shows ((g.clear start stop).setContent start text)
      ((Stroke.range start stop text false).paint p) := by
  have hinside : ∀ n, p.start < n → n < p.stop → (g.clear start stop).left n = [] ∧
      (g.clear start stop).right n = [] ∧
      (((g.clear start stop).setContent start text).content n).getD [] = [] := by
    intro n h1 h2
    obtain ⟨hl, hr, hc⟩ := h.inside n h1 h2
    have hne : n ≠ start := by omega
    simp only [Gaps.clear, Gaps.setContent, if_neg hne]
    refine ⟨by simp [hl], by simp [hr], ?_⟩
    split
    · rfl
    · exact hc
  by_cases hin : start ≤ p.start ∧ p.start < stop
  · have hstop : start < p.stop ∧ p.stop ≤ stop := by omega
    have hhidden : ∀ n, p.start ≤ n → n < p.stop → (g.clear start stop).hidden n = true :=
      fun n h1 h2 => if_pos (by omega)
    rw [Stroke.paint_of_touches (k := .range start stop text false) hin, Stroke.change]
    split
    next heq =>
      have hcontent : ((g.clear start stop).setContent start text).content p.start = some text :=
        if_pos heq
      exact ⟨if_pos hin, if_pos hstop, congrArg (·.getD []) hcontent, hhidden, hinside⟩
    next hne =>
      refine ⟨if_pos hin, if_pos hstop, ?_, hhidden, hinside⟩
      simp [Gaps.setContent, Gaps.clear, hne, hin, Piece.blank]
  · have hne : p.start ≠ start := by omega
    have hcontent : ((g.clear start stop).setContent start text).content p.start =
        g.content p.start := (if_neg hne).trans (if_neg hin)
    rw [Stroke.paint_of_not_touches (k := .range start stop text false) hin]
    exact ⟨(if_neg hin).trans h.intro, (if_neg (by omega)).trans h.outro, hcontent ▸ h.content,
      fun n h1 h2 => (if_neg (by omega)).trans (h.hidden n h1 h2), hinside⟩

end

theorem Refines.stroke {k : Stroke} (h : b.Laid) (hne : b.source ≠ [])
    (hs : b.IsEdge k.footprint.start) (ht : b.IsEdge k.footprint.stop) (hk : k.Proper)
    (hdrop : k.Drops) (hr : b.Refines g) : (b.stroke k).Refines (g.stroke k) := by
  cases k with
  | left n f =>
    refine ⟨?_, hr.outro, hr.content, List.forall_mem_map.mpr fun q hq => ?_⟩
    · simp only [Gaps.stroke, Gaps.editLeft, EditBuffer.stroke, Stroke.paintIntro_left, hr.intro, eq_comm]
    · exact (hr.shows q hq).left (h.edge_outside hs hq) f
  | right n f =>
    refine ⟨hr.intro, ?_, hr.content, List.forall_mem_map.mpr fun q hq => ?_⟩
    · simp only [Gaps.stroke, Gaps.editRight, EditBuffer.stroke, Stroke.paintOutro, hr.outro, eq_comm]
    · exact (hr.shows q hq).right (h.edge_outside hs hq) f
  | range start stop text keepEdges =>
    obtain rfl : keepEdges = false := hdrop
    have hlt : start < stop := hk
    have hle : stop ≤ b.source.size := h.edge_le ht
    have hend : ¬ (start ≤ b.source.size ∧ b.source.size < stop) := by omega
    have hzero : (g.clear start stop).left 0 = g.left 0 := by simp [Gaps.clear]
    have hcontent : ((g.clear start stop).setContent start text).content b.source.size =
        g.content b.source.size := (if_neg (by omega)).trans (if_neg hend)
    refine ⟨hzero.trans hr.intro, (if_neg hend).trans hr.outro, hcontent ▸ hr.content,
      List.forall_mem_map.mpr fun q hq => ?_⟩
    have hpos := Text.size_pos (h.source_ne_nil hne hq)
    exact (hr.shows q hq).range hlt (by rw [Piece.stop]; omega) (h.edge_outside hs hq)
      (h.edge_outside ht hq) text

theorem Refines.clear {start stop : Nat} (hlt : start < stop)
    (hr : b.Refines ((g.clear start stop).setContent start [])) : b.Refines (g.clear start stop) := by
  have hsame : ∀ n, ((g.clear start stop).content n).getD [] =
      (((g.clear start stop).setContent start []).content n).getD [] := by
    intro n
    by_cases hn : n = start
    · simp [Gaps.clear, Gaps.setContent, hn, hlt]
    · simp [Gaps.setContent, hn]
  refine ⟨hr.intro, hr.outro, (hsame _).trans hr.content, fun p hp => ?_⟩
  obtain ⟨hintro, houtro, hcontent, hhidden, hinside⟩ := hr.shows p hp
  exact ⟨hintro, houtro, (hsame _).trans hcontent, hhidden, fun n h1 h2 =>
    ⟨(hinside n h1 h2).1, (hinside n h1 h2).2.1, (hsame n).trans (hinside n h1 h2).2.2⟩⟩

theorem Visits.unbroken_filter {c : Option Nat} (hv : b.Visits c ps)
    (hs : ps.Pairwise fun p q => p.start < q.start) (start stop : Nat) :
    ∀ p qs, ps.filter (fun p => start ≤ p.start && p.start < stop) = p :: qs →
      unbroken p qs = qs := by
  induction hv with
  | done => simp
  | @visit s q ps here rest ih =>
    have ih := ih (List.pairwise_cons.mp hs).2
    intro p qs hf
    by_cases hq : start ≤ q.start ∧ q.start < stop
    · rw [List.filter_cons_of_pos (by simpa using hq), List.cons.injEq] at hf
      obtain ⟨rfl, rfl⟩ := hf
      cases rest' : ps with
      | nil => rfl
      | cons r rs =>
        subst rest'
        by_cases hr : r.start < stop
        · have hqr := List.rel_of_pairwise_cons hs (List.mem_cons_self (a := r) (l := rs))
          have hin : start ≤ r.start ∧ r.start < stop := by omega
          rw [List.filter_cons_of_pos (by simpa using hin)] at ih ⊢
          have hnext := @Visits.next_eq _ _ [] _ _ _ (.visit here rest)
          rw [unbroken, if_pos hnext, ih r _ rfl]
        · -- the pieces further on start later still
          have hnone : (r :: rs).filter (fun p => start ≤ p.start && p.start < stop) = [] := by
            rw [List.filter_eq_nil_iff]
            intro t ht
            have htr : r.start ≤ t.start := by
              rcases List.mem_cons.mp ht with rfl | ht
              · exact Nat.le_refl _
              · exact Nat.le_of_lt
                  (List.rel_of_pairwise_cons (List.pairwise_cons.mp hs).2 ht)
            simp only [Bool.and_eq_true, decide_eq_true_eq]
            omega
          rw [hnone, unbroken]
    · rw [List.filter_cons_of_neg (by simpa using hq)] at hf
      exact ih p qs hf

theorem Laid.stroke_size (h : b.Laid) (hs : b.source ≠ []) (f : Text → Text) :
    b.IsEdge b.source.size ∧
      b.stroke (.right b.source.size f) = { b with outro := f b.outro } := by
  obtain ⟨p, hp, hstop⟩ := h.exists_stop
  refine ⟨⟨p, hp, .inr hstop⟩, ?_⟩
  have hsame : ∀ q ∈ b.pieces, (Stroke.right b.source.size f).paint q = q := by
    intro q hq
    have hpos := Text.size_pos (h.source_ne_nil hs hq)
    have hle := h.stop_le hq
    simp only [Piece.stop] at hle
    exact if_neg (show q.start ≠ b.source.size by omega)
  simp only [stroke, Stroke.paintOutro, List.map_congr_left hsame, List.map_id', if_true]
  rfl

theorem Laid.stroke_zero (h : b.Laid) (hs : b.source ≠ []) (f : Text → Text) :
    b.IsEdge 0 ∧ b.stroke (.left 0 f) = { b with intro := f b.intro } := by
  obtain ⟨p, ps, hps⟩ := List.exists_cons_of_ne_nil h.some_piece
  refine ⟨⟨p, by simp [hps], .inl (hps ▸ h.tiles : Tiles 0 (p :: ps)).1⟩, ?_⟩
  have hsame : ∀ q ∈ b.pieces, (Stroke.left 0 f).paint q = q := by
    intro q hq
    have hpos := Text.size_pos (h.source_ne_nil hs hq)
    exact if_neg (show q.stop ≠ 0 by rw [Piece.stop]; omega)
  rw [stroke, List.map_congr_left hsame, List.map_id']
  rfl

/-- A buffer over a source, in source order, that refines the gaps. -/
structure Mirrors (source : Text) (b : EditBuffer) (g : Gaps) : Prop where
  laid : b.Laid
  source_eq : b.source = source
  order : b.InOrder
  refines : b.Refines g

theorem mirrors_ofText (source : Text) : Mirrors source (ofText source) .untouched := by
  refine ⟨ofText_laid source, rfl, ?_, rfl, rfl, rfl, ?_⟩
  · exact .visit rfl .done
  · intro p hp
    obtain rfl := List.mem_singleton.mp hp
    exact ⟨rfl, rfl, rfl, fun _ _ _ => rfl, fun _ _ _ => ⟨rfl, rfl, rfl⟩⟩

section
variable {source : Text} {b : EditBuffer} {g : Gaps}

theorem Mirrors.cuts (hm : Mirrors source b g) (hc : Cuts b b') : Mirrors source b' g := by
  have hkeep := hc.keep (P := fun b => b.source = source ∧ b.InOrder ∧ b.Refines g)
    (by
      rintro b p offset h hc ⟨hs, ho, hr⟩
      exact ⟨by rw [cutAt_eq]; exact hs, ho.cutAt h hc, hr.cutAt h hc⟩)
    hm.laid ⟨hm.source_eq, hm.order, hm.refines⟩
  exact ⟨hkeep.1, hkeep.2.1, hkeep.2.2.1, hkeep.2.2.2⟩

theorem Mirrors.painted {g' : Gaps} {r : EditRecord} (hm : Mirrors source b g) (hp : Painted f b b')
    (hr : b'.Refines g') : Mirrors source (b'.logged r) g' :=
  ⟨(painted_logged b' r).laid (hp.laid hm.laid), hp.source.trans hm.source_eq,
    (hm.order.painted hp).painted (painted_logged b' r), hr.intro, hr.outro, hr.content, hr.shows⟩

/-- A call is refused and leaves the buffer a mirror of the gaps, or it is carried out and leaves it
a mirror of the new ones. -/
def Answers (source : Text) (x : Editing Unit) (b : EditBuffer) (g g' : Gaps) : Prop :=
  (∃ e b', x b = .error e b' ∧ Mirrors source b' g) ∨ ∃ b', x b = .ok () b' ∧ Mirrors source b' g'

variable (hm : Mirrors source b g) (hs : source ≠ [])
include hm hs

theorem Mirrors.stroke {k : Stroke} {g' : Gaps} (hk : o.stroke? = some k) (hdrop : k.Drops)
    (hidle : ∀ n, o = .remove n n → g' = g)
    (hmade : k.Proper → ∀ b : EditBuffer, b.Refines (g.stroke k) → b.Refines g') :
    Answers source o.run b g g' := by
  cases hm.laid.stroked (hm.source_eq ▸ hs) hk with
  | refused e b' run cuts => exact .inl ⟨e, b', run, hm.cuts cuts⟩
  | idle n eq run => exact .inr ⟨b, run, hidle n eq ▸ hm⟩
  | made b₁ r cuts laid start stop proper run =>
    have hm' := hm.cuts cuts
    exact .inr ⟨_, run, hm'.painted (painted_stroke b₁ k) (hmade proper _
      (hm'.refines.stroke laid (hm'.source_eq ▸ hs) start stop proper hdrop))⟩
  | broken b₁ b' e start stop p ps cuts laid within broken run =>
    exact absurd ((hm.cuts cuts).order.unbroken_filter laid.sorted start stop p ps within) broken

theorem Mirrors.answers (ho : o.InPlace) : Answers source o.run b g (g.apply source.size o) := by
  have hne : b.source ≠ [] := hm.source_eq ▸ hs
  cases o with
  | insertLeft offset text | prependLeft offset text | insertRight offset text
  | prependRight offset text => exact hm.stroke hs rfl trivial (by simp) fun _ _ hr => hr
  | overwrite start stop text => exact hm.stroke hs rfl rfl (by simp) fun _ _ hr => hr
  | remove start stop =>
    refine hm.stroke hs rfl rfl ?_ fun hlt b hr => ?_
    · rintro _ ⟨⟩
      exact if_neg (Nat.lt_irrefl start)
    · rw [Gaps.apply, if_pos (show start < stop from hlt)]
      exact Refines.clear hlt hr
  | append text =>
    obtain ⟨hedge, hat⟩ := hm.laid.stroke_size hne (· ++ text)
    have hm' := hm.painted (r := ⟨.append, .empty b.source.size, some text⟩) (painted_stroke b _)
      (hm.refines.stroke (k := .right _ (· ++ text)) hm.laid hne hedge hedge trivial trivial)
    rw [hat] at hm'
    exact .inr ⟨_, rfl, hm.source_eq ▸ hm'⟩
  | prepend text =>
    obtain ⟨hedge, hat⟩ := hm.laid.stroke_zero hne (text ++ ·)
    have hm' := hm.painted (r := ⟨.prepend, .empty 0, some text⟩) (painted_stroke b _)
      (hm.refines.stroke (k := .left 0 (text ++ ·)) hm.laid hne hedge hedge trivial trivial)
    rw [hat] at hm'
    exact .inr ⟨_, rfl, hm'⟩
  | update start stop text => exact ho.elim
  | moveRange start stop destination => exact ho.elim
  | slice start stop => exact ho.elim

theorem Mirrors.after (ho : o.InPlace) : Mirrors source (b.after o)
    (if b.accepts o then g.apply b.source.size o else g) := by
  unfold EditBuffer.after accepts Editing.leave
  obtain ⟨e, b', hb, hm'⟩ | ⟨b', hb, hm'⟩ := hm.answers hs ho
  · simpa [hb] using hm'
  · simpa [hb, hm.source_eq] using hm'

theorem Mirrors.afterAll {os : List Operation} (ho : ∀ o ∈ os, o.InPlace) :
    Mirrors source (b.afterAll os) (b.replay g os) := by
  induction os generalizing b g with
  | nil => exact hm
  | cons o os ih =>
    have hm' := hm.after hs (ho o (by simp))
    exact ih hm' fun o ho' => ho o (by simp [ho'])

end

/-- After any calls in place, carried out or refused, the walk through the output ends and shows
the source with its gaps filled by the calls that were carried out. -/
theorem render_afterAll_eq_replay {source : Text} (hs : source ≠ []) {os : List Operation}
    (ho : ∀ o ∈ os, o.InPlace) :
    ((ofText source).afterAll os).Ends ∧
      ((ofText source).afterAll os).render.bytes =
        ((ofText source).replay .untouched os).render source := by
  have hm := (mirrors_ofText source).afterAll hs ho
  refine ⟨⟨_, hm.order⟩, ?_⟩
  have hne : ((ofText source).afterAll os).source ≠ [] := by rwa [hm.source_eq]
  have hr := hm.refines.render_eq hm.laid hne hm.order
  rwa [hm.source_eq] at hr

/-- The removal is refused at its end, after it has cut the source at its start. -/
theorem render_afterAll_eq_replay_refused : let source : Text := ['a', 'b', 'é', 'd', 'e', 'f']
    let os : List Operation := [.overwrite 4 6 ['X', 'Y'], .remove 1 5, .insertLeft 4 ['+'],
      .prependRight 1 ['-']]
    (∀ o ∈ os, o.InPlace) ∧
      ((ofText source).afterAll os).render = ['a', '-', 'b', 'é', '+', 'X', 'Y', 'f'] ∧
      ((ofText source).afterAll os).render.bytes =
        ((ofText source).replay .untouched os).render source :=
  ⟨by simp [Operation.InPlace], by decide +kernel,
    (render_afterAll_eq_replay (by decide) (by simp [Operation.InPlace])).2⟩

end EditBuffer
end SfcTsx
