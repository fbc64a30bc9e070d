import SfcTsx.Proofs.EditBuffer.Row

namespace SfcTsx

namespace Cell

def introAt (n : Nat) (cs : List Cell) : Text := cs.flatMap fun c => if c.start = n then c.intro else []

def outroAt (n : Nat) (cs : List Cell) : Text := cs.flatMap fun c => if c.stop = n then c.outro else []

def trim (start stop : Nat) (c : Cell) : Cell :=
  { c with
    intro := if c.start = start then [] else c.intro
    outro := if c.stop = stop then [] else c.outro }

/-- The character under a text in place of a range. What is stuck to the start of the range stays, and
of what is stuck to the text in front of an offset, only that at `kept`. -/
def updated (start stop kept : Nat) (text : Text) (c : Cell) : Cell :=
  if c.isIn start stop then
    { c with
      intro := if c.start = start then c.intro else []
      body := if c.start = start then text else []
      outro := if c.stop = kept then c.outro else [] }
  else c

theorem updated_of_not_isIn {start stop kept : Nat} {text : Text} {c : Cell}
    (h : c.isIn start stop = false) : c.updated start stop kept text = c := by
  rw [updated, if_neg (by simp [h])]

end Cell

namespace EditBuffer

section
variable {s e : Nat} {cs P A Q : List Cell} (h : Run s e cs P A Q)
  (hsorted : A.Pairwise fun c d => c.stop ≤ d.start)
include h hsorted

theorem Run.render_eq : A.flatMap Cell.render =
    Cell.introAt s A ++ (A.map (Cell.trim s e)).flatMap Cell.render ++ Cell.outroAt e A := by
  have hone (c : Cell) : c.render = (if c.start = s then c.intro else []) ++
      ((c.trim s e).render ++ if c.stop = e then c.outro else []) := by
    by_cases hs : c.start = s <;> by_cases he : c.stop = e <;> simp [Cell.render, Cell.trim, hs, he]
  have hlast := Cell.flatMap_last hsorted (fun c => (c.trim s e).render) h.last Cell.outro
  rw [List.flatMap_congr fun c _ => hone c, Cell.flatMap_first hsorted _ h.first, hlast,
    List.flatMap_map, List.append_assoc]
  rfl

theorem Run.render_updated (kept : Nat) (text : Text) :
    (A.map (Cell.updated s e kept text)).flatMap Cell.render =
      Cell.introAt s A ++ text ++ Cell.outroAt kept A := by
  have hone : ∀ c ∈ A, (c.updated s e kept text).render = (if c.start = s then c.intro else []) ++
      ((if c.start = s then text else []) ++ if c.stop = kept then c.outro else []) := by
    intro c hc
    rw [Cell.updated, if_pos (h.inside c hc), Cell.render, List.append_assoc]
  have htext : (A.flatMap fun c => if c.start = s then text else []) = text := by
    have hfirst := h.first
    cases A with
    | nil => cases hfirst
    | cons c A =>
      obtain ⟨hlater, -⟩ := List.pairwise_cons.mp hsorted
      have hc : c.start = s := Option.some.inj hfirst
      have hothers : ∀ d ∈ A, (if d.start = s then text else []) = [] := by
        intro d hd
        have := hlater d hd
        have := c.start_lt_stop
        exact if_neg (by omega)
      rw [List.flatMap_cons, if_pos hc, List.flatMap_eq_nil_iff.mpr hothers, List.append_nil]
  rw [List.flatMap_map, List.flatMap_congr hone, Cell.flatMap_first hsorted _ h.first,
    Cell.flatMap_first hsorted _ h.first (fun _ => text), htext, List.append_assoc]
  rfl

end

theorem Run.map_updated {s e : Nat} {cs P A Q : List Cell} (h : Run s e cs P A Q) (kept : Nat)
    (text : Text) : cs.map (Cell.updated s e kept text) =
      P ++ (A.map (Cell.updated s e kept text) ++ Q) := by
  have hsame : ∀ l : List Cell, (∀ c ∈ l, c.isIn s e = false) →
      l.map (Cell.updated s e kept text) = l := fun l hl =>
    (List.map_congr_left fun c hc => Cell.updated_of_not_isIn (hl c hc)).trans (List.map_id _)
  rw [h.eq, List.map_append, List.map_append, hsame P h.before, hsame Q h.behind]

section
variable {source : Text} {b : EditBuffer}

theorem Laid.cells_updated (h : b.Laid) {start stop : Nat} {p : Piece} (hs : b.IsEdge start)
    (ht : b.IsEdge stop) (hp : p ∈ b.pieces) (hps : p.start = start) (text : Text) :
    (b.stroke (.range start stop text true)).cells =
      b.cells.map (Cell.updated start stop p.stop text) := by
  have htwice (x : Prop) [Decidable x] (t : Text) :
      (if x then (if x then t else []) else []) = if x then t else [] := by split <;> rfl
  refine (painted_stroke b _).cells_eq fun q hq => ?_
  refine Piece.cells_congr (Stroke.paint_keeps _ q).1 (Stroke.paint_keeps _ q).2.1 fun c hlo hhi => ?_
  have hin : (q.paint c).isIn start stop = (decide (start ≤ q.start) && decide (q.start < stop)) :=
    h.isIn_cells hs ht hq hlo hhi
  by_cases hr : start ≤ q.start ∧ q.start < stop
  · have hin : (q.paint c).isIn start stop = true := by simpa [hin] using hr
    rw [Stroke.paint_of_touches (k := .range start stop text true) hr, Stroke.change, Cell.updated,
      if_pos hin]
    by_cases hqp : q.start = start
    · obtain rfl := h.eq_of_start hq hp (hqp.trans hps.symm)
      subst hps
      rw [if_pos rfl]
      change _ = { c with
        intro := if c.start = q.start then (if c.start = q.start then q.intro else []) else []
        body := if c.start = q.start then text else []
        outro := if c.stop = q.stop then (if c.stop = q.stop then q.outro else []) else [] }
      rw [htwice, htwice]
      rfl
    · have hafter : p.stop ≤ q.start := by
        have := h.edge_outside (n := q.start) ⟨q, hq, .inl rfl⟩ hp
        omega
      have hlt := c.start_lt_stop
      have hne : (q.paint c).start ≠ start := by
        simp only [Piece.paint_start]
        omega
      have hne' : (q.paint c).stop ≠ p.stop := by
        simp only [Piece.paint_stop]
        omega
      rw [if_neg hqp, Piece.paint_blank]
      simp only [if_neg hne, if_neg hne']
      rfl
  · rw [Stroke.paint_of_not_touches (k := .range start stop text true) hr,
      Cell.updated_of_not_isIn (by simpa [hin] using hr)]

theorem Resting.update_eq_ok (h : Resting source b) (hne : source ≠ []) {start stop : Nat} {text : Text}
    {b' : EditBuffer} (hok : update start stop text b = .ok () b') :
    start < stop ∧ source.isBoundary start = true ∧ source.isBoundary stop = true ∧
      b'.Laid ∧ b'.source = source ∧ b'.intro = b.intro ∧ b'.outro = b.outro ∧
      ∃ p, ((b.withEdge start).withEdge stop).startingAt? start = some p ∧ start < p.stop ∧
        p.stop ≤ stop ∧ b'.cells = b.cells.map (Cell.updated start stop p.stop text) := by
  simp only [update, Editing.bind_apply] at hok
  obtain ⟨e, b₁, hb, -⟩ | ⟨b₁, p, ps, hedges, hlt, hc, hl, hs, ht, hw, hb⟩ :=
    h.laid.replace_cases start stop text true
  · rw [hb] at hok
    cases hok
  have hrest := h.cuts hc
  rw [hb, if_pos (hrest.order.unbroken_filter hl.sorted start stop p ps hw),
    hl.showing_eq hs ht hlt hw] at hok
  obtain rfl := (EStateM.Result.ok.inj ((record_apply ..).symm.trans hok)).2
  obtain ⟨hp, hps, -⟩ := hl.within_eq_cons hs ht hlt hw
  have hpos : start < p.stop := by
    have := Text.size_pos (hl.source_ne_nil (hrest.source_eq ▸ hne) hp)
    rw [Piece.stop]
    omega
  have hle : p.stop ≤ stop := by
    have := hl.edge_outside ht hp
    omega
  refine ⟨hlt, hrest.source_eq ▸ hl.isBoundary_of_isEdge hs,
    hrest.source_eq ▸ hl.isBoundary_of_isEdge ht,
    ((painted_stroke b₁ _).trans (painted_logged _ _)).laid hl, hrest.source_eq, hc.frame.2.2.1, hc.frame.2.2.2.1, p, ?_, hpos, hle, ?_⟩
  · rw [← hedges]
    exact hl.startingAt?_eq_some.mpr ⟨hp, hps⟩
  · rw [cells_logged, ← h.linked.cells_cuts h.laid hc]
    exact hl.cells_updated hs ht hp hps text

end

/-- Without moves, a replacement shows its text in place of all between what is stuck to the start of
its range and, not what is stuck to the end of it, but what is stuck to the end of the first piece of
it. The insertions at the edges of the range are what is kept exactly if the two are the same text. -/
theorem render_update_iff {source : Text} (hne : source ≠ []) {os : List Operation}
    (hmoves : ∀ o ∈ os, o.isMove = false) {start stop : Nat} {text : Text} {b' : EditBuffer}
    (hok : update start stop text ((ofText source).afterAll os) = .ok () b') :
    let b := (ofText source).afterAll os
    let inside := b.cells.filter (Cell.isIn start stop)
    let around (middle : Text) : Text :=
      b.intro ++ (b.cells.filter (·.start < start)).flatMap Cell.render ++ middle ++
        (b.cells.filter (stop ≤ ·.start)).flatMap Cell.render ++ b.outro
    let edged (middle : Text) (kept : Nat) : Text :=
      around (Cell.introAt start inside ++ middle ++ Cell.outroAt kept inside)
    b.render = edged ((inside.map (Cell.trim start stop)).flatMap Cell.render) stop ∧
      ∃ p, ((b.withEdge start).withEdge stop).startingAt? start = some p ∧ start < p.stop ∧
        p.stop ≤ stop ∧ b'.render = edged text p.stop ∧
        (b'.render = edged text stop ↔ Cell.outroAt p.stop inside = Cell.outroAt stop inside) := by
  intro b inside around edged
  have hrest : Resting source b := resting_afterAll source hmoves
  obtain ⟨hlt, hs, ht, hl', hsource', hintro, houtro, p, hat, hpos, hle, hcells⟩ :=
    hrest.update_eq_ok hne hok
  have hrun := hrest.run hs ht hlt
  have hsorted : inside.Pairwise fun c d => c.stop ≤ d.start := hrest.row.sorted.filter _
  have hold : b.render = edged ((inside.map (Cell.trim start stop)).flatMap Cell.render) stop := by
    rw [hrest.laid.render_eq_cells (hrest.source_eq.symm ▸ hne)]
    nth_rewrite 1 [hrun.eq]
    rw [List.flatMap_append, List.flatMap_append, hrun.render_eq hsorted]
    simp [edged, around, inside]
  have hnew : b'.render = edged text p.stop := by
    rw [hl'.render_eq_cells (hsource'.symm ▸ hne), hcells, hintro, houtro, hrun.map_updated,
      List.flatMap_append, List.flatMap_append, hrun.render_updated hsorted]
    simp [edged, around, inside]
  refine ⟨hold, p, hat, hpos, hle, hnew, ?_⟩
  rw [hnew]
  simp [edged, around]

/-- A range of one piece keeps the insertions at both of its edges. -/
theorem render_update_iff_one_piece :
    let b := (ofText ['a', 'b', 'é', 'd', 'e']).afterAll
      [.insertRight 1 ['('], .insertLeft 4 [')'], .append ['!']]
    let b' := (update 1 4 ['Y']).leave b
    update 1 4 ['Y'] b = .ok () b' ∧ b.render = ['a', '(', 'b', 'é', ')', 'd', 'e', '!'] ∧
      b'.render = ['a', '(', 'Y', ')', 'd', 'e', '!'] := by
  intro b b'
  have hok : update 1 4 ['Y'] b = .ok () b' := rfl
  obtain ⟨hold, p, hat, -, -, -, hiff⟩ := render_update_iff (by decide) (by decide) hok
  have hstop : p.stop = 4 := by
    have hpiece : (b.withEdge 1 |>.withEdge 4).startingAt? 1 =
        some { start := 1, source := ['b', 'é'], intro := ['('], outro := [')'], prev := some 0
               next := some 4 } := by decide +kernel
    rw [← Option.some.inj (hpiece.symm.trans hat)]
    decide
  exact ⟨hok, hold.trans (by decide +kernel), (hiff.mpr (by rw [hstop])).trans (by decide +kernel)⟩

/-- A cut inside the range, even one that shows nothing, loses what is stuck to the end of the range. -/
theorem update_drops_insertion_at_stop :
    let b := (ofText ['a', 'b', 'c', 'd', 'e', 'f']).afterAll [.insertLeft 3 ['Z'], .insertLeft 1 []]
    let b' := (update 0 3 ['Y']).leave b
    update 0 3 ['Y'] b = .ok () b' ∧ b.render = ['a', 'b', 'c', 'Z', 'd', 'e', 'f'] ∧
      b'.render = ['Y', 'd', 'e', 'f'] ∧ b'.render ≠ ['Y', 'Z', 'd', 'e', 'f'] :=
  ⟨rfl, by decide +kernel, by decide +kernel, by decide +kernel⟩

end EditBuffer
end SfcTsx
