import SfcTsx.Proofs.EditBuffer.Moves
import SfcTsx.Proofs.EditBuffer.Refinement

namespace SfcTsx

variable {s e : Nat} {A P Q cs : List Cell}

variable {p : Piece} {t : Text} {offset n : Nat} {b' : EditBuffer} {ps : List Piece}
  {f : Piece → Piece}

/-- A character of the source, with what is shown before it, for it and behind it. -/
structure Cell where
  start : Nat
  char : Char
  intro : Text
  body : Text
  outro : Text
deriving DecidableEq, Repr

variable {c : Cell}

namespace Cell

def stop (c : Cell) : Nat := c.start + c.char.utf8Size

def render (c : Cell) : Text := c.intro ++ c.body ++ c.outro

def hide (c : Cell) : Cell := { c with intro := [], body := [], outro := [] }

def isIn (start stop : Nat) (c : Cell) : Bool := start ≤ c.start && c.stop ≤ stop

theorem isIn_iff {start stop : Nat} :
    c.isIn start stop = true ↔ start ≤ c.start ∧ c.stop ≤ stop := by
  simp [isIn]

theorem isIn_eq_false_iff : c.isIn s e = false ↔ c.start < s ∨ e < c.stop := by
  rw [Bool.eq_false_iff, ne_eq, isIn_iff]
  omega

theorem start_lt_stop (c : Cell) : c.start < c.stop := by
  have := c.char.utf8Size_pos
  simp only [stop]
  omega

end Cell

def Text.cells : Nat → Text → List Cell
  | _, [] => []
  | offset, c :: cs => ⟨offset, c, [], [c], []⟩ :: cells (offset + c.utf8Size) cs

namespace Text

theorem cells_append (offset : Nat) (s t : Text) :
    cells offset (s ++ t) = cells offset s ++ cells (offset + size s) t := by
  induction s generalizing offset with
  | nil => rfl
  | cons c s ih => simp [cells, ih, Nat.add_assoc]

theorem mem_cells (h : c ∈ cells offset t) : offset ≤ c.start ∧ c.stop ≤ offset + size t := by
  induction t generalizing offset with
  | nil => cases h
  | cons d t ih =>
    rcases List.mem_cons.mp h with rfl | h
    · simp [Cell.stop]
    · have := ih h
      simp only [size_cons]
      omega

theorem cells_ne_nil (h : t ≠ []) : cells offset t ≠ [] := by
  cases t with
  | nil => exact absurd rfl h
  | cons c t => simp [cells]

theorem head?_cells (offset : Nat) (h : t ≠ []) :
    (cells offset t).head?.map Cell.start = some offset := by
  cases t with
  | nil => exact absurd rfl h
  | cons c t => rfl

theorem getLast?_cells (offset : Nat) (h : t ≠ []) :
    (cells offset t).getLast?.map Cell.stop = some (offset + size t) := by
  induction t generalizing offset with
  | nil => exact absurd rfl h
  | cons c t ih =>
    cases t with
    | nil => simp [cells, Cell.stop]
    | cons d t =>
      have hrest := ih (offset + c.utf8Size) (by simp)
      rw [size_cons, ← Nat.add_assoc, ← hrest]
      simp [cells]

theorem apart_cells (offset : Nat) (t : Text) :
    (cells offset t).Pairwise fun c d => c.stop ≤ d.start := by
  induction t generalizing offset with
  | nil => exact .nil
  | cons c t ih => exact List.pairwise_cons.mpr ⟨fun d hd => (mem_cells hd).1, ih _⟩

theorem pairwise_cells (offset : Nat) (t : Text) :
    (cells offset t).Pairwise fun c d => c.start < d.start :=
  (apart_cells offset t).imp fun {c _} hle => Nat.lt_of_lt_of_le c.start_lt_stop hle

theorem flatMap_render_cells (offset : Nat) (t : Text) : (cells offset t).flatMap Cell.render = t := by
  induction t generalizing offset with
  | nil => rfl
  | cons c t ih => simp [cells, Cell.render, ih]

theorem flatMap_cells_last (offset : Nat) (h : t ≠ []) (body : Cell → Text) (outro : Text) :
    ((cells offset t).flatMap fun c => body c ++ if c.stop = offset + size t then outro else []) =
      (cells offset t).flatMap body ++ outro := by
  induction t generalizing offset with
  | nil => exact absurd rfl h
  | cons c t ih =>
    cases t with
    | nil => simp [cells, Cell.stop]
    | cons d t =>
      have hrest := ih (offset + c.utf8Size) (by simp)
      have hpos := d.utf8Size_pos
      have hne : ¬ (offset + c.utf8Size = offset + size (c :: d :: t)) := by
        simp only [size_cons]
        omega
      have hsize : offset + size (c :: d :: t) = offset + c.utf8Size + size (d :: t) := by
        rw [size_cons, Nat.add_assoc]
      rw [cells, List.flatMap_cons, List.flatMap_cons]
      simp only [Cell.stop, hne, if_false, List.append_nil, List.append_assoc]
      simp only [Cell.stop] at hrest
      rw [hsize, hrest]

theorem flatMap_cells_first (offset : Nat) (h : t ≠ []) (intro : Text) (rest : Cell → Text) :
    ((cells offset t).flatMap fun c => (if c.start = offset then intro else []) ++ rest c) =
      intro ++ (cells offset t).flatMap rest := by
  cases t with
  | nil => exact absurd rfl h
  | cons c t =>
    have hothers : ((cells (offset + c.utf8Size) t).flatMap fun c =>
        (if c.start = offset then intro else []) ++ rest c) =
          (cells (offset + c.utf8Size) t).flatMap rest := by
      refine List.flatMap_congr fun d hd => ?_
      have hge := (mem_cells hd).1
      have hpos := c.utf8Size_pos
      rw [if_neg (by omega), List.nil_append]
    rw [cells, List.flatMap_cons, List.flatMap_cons, hothers]
    simp

end Text

variable {g : Cell → Cell}

namespace Piece

/-- What stands for a character of the piece itself; a replacement stands at its first one. -/
def shownAt (p : Piece) (c : Cell) : Text :=
  match p.replacement with
  | none => [c.char]
  | some text => if c.start = p.start then text else []

def paint (p : Piece) (c : Cell) : Cell :=
  { c with
    intro := if c.start = p.start then p.intro else []
    body := p.shownAt c
    outro := if c.stop = p.stop then p.outro else [] }

def cells (p : Piece) : List Cell := (Text.cells p.start p.source).map p.paint

@[simp] theorem paint_start (p : Piece) (c : Cell) : (p.paint c).start = c.start := rfl

@[simp] theorem paint_stop (p : Piece) (c : Cell) : (p.paint c).stop = c.stop := rfl

theorem mem_cells (h : c ∈ p.cells) : p.start ≤ c.start ∧ c.stop ≤ p.stop := by
  obtain ⟨d, hd, rfl⟩ := List.mem_map.mp h
  have := Text.mem_cells hd
  exact this

section
variable (h : p.source ≠ [])
include h

theorem cells_ne_nil : p.cells ≠ [] := by
  simpa [cells] using Text.cells_ne_nil h

theorem head?_cells : p.cells.head?.map Cell.start = some p.start := by
  rw [cells, List.head?_map, Option.map_map]
  exact Text.head?_cells p.start h

theorem getLast?_cells : p.cells.getLast?.map Cell.stop = some p.stop := by
  rw [cells, List.getLast?_map, Option.map_map]
  exact Text.getLast?_cells p.start h

theorem flatMap_shownAt : (Text.cells p.start p.source).flatMap p.shownAt = p.shown := by
  cases hr : p.replacement with
  | none =>
    have hplain : ∀ (o : Nat) (t : Text), (Text.cells o t).flatMap (fun c => [c.char]) = t := by
      intro o t
      induction t generalizing o with
      | nil => rfl
      | cons c t ih => simp [Text.cells, ih]
    have hshown : p.shownAt = fun c => [c.char] := by
      funext c
      simp [shownAt, hr]
    rw [hshown, hplain, shown, hr, Option.getD_none]
  | some text =>
    have hfirst := Text.flatMap_cells_first p.start h text fun _ => []
    have hnone : (Text.cells p.start p.source).flatMap (fun _ => ([] : Text)) = [] := by simp
    have hshown : p.shownAt = fun c => (if c.start = p.start then text else []) ++ [] := by
      funext c
      simp [shownAt, hr]
    rw [hshown, hfirst, hnone, List.append_nil, shown, hr, Option.getD_some]

theorem flatMap_render_cells : p.cells.flatMap Cell.render = p.render := by
  have hlast := Text.flatMap_cells_last p.start h p.shownAt p.outro
  rw [flatMap_shownAt h] at hlast
  have hcell : ∀ c, (p.paint c).render = (if c.start = p.start then p.intro else []) ++
      (p.shownAt c ++ if c.stop = p.stop then p.outro else []) := by
    intro c
    simp [paint, Cell.render]
  rw [cells, List.flatMap_map]
  simp only [hcell]
  rw [Text.flatMap_cells_first p.start h]
  rw [show p.stop = p.start + p.source.size from rfl, hlast, render, List.append_assoc]

end

theorem paint_blank (p : Piece) (c : Cell) : p.blank.paint c = (p.paint c).hide := by
  have hintro : (if c.start = p.blank.start then p.blank.intro else []) = [] := by split <;> rfl
  have hbody : p.blank.shownAt c = [] := by
    change (if c.start = p.start then [] else []) = _
    split <;> rfl
  have houtro : (if c.stop = p.blank.stop then p.blank.outro else []) = [] := by split <;> rfl
  rw [paint, hintro, hbody, houtro]
  rfl

theorem cells_congr {q : Piece} (hstart : q.start = p.start) (hsource : q.source = p.source)
    (hg : ∀ c, p.start ≤ c.start → c.stop ≤ p.stop → q.paint c = g (p.paint c)) :
    q.cells = p.cells.map g := by
  rw [cells, cells, List.map_map, hstart, hsource]
  refine List.map_congr_left fun c hc => ?_
  exact hg c (Text.mem_cells hc).1 (Text.mem_cells hc).2

end Piece

namespace EditBuffer

def cells (b : EditBuffer) : List Cell := b.output.flatMap Piece.cells

section
variable {b : EditBuffer}

theorem ofText_cells (source : Text) : (ofText source).cells = Text.cells 0 source := by
  have hout : (ofText source).output = [{ start := 0, source }] := rfl
  rw [cells, hout, List.flatMap_singleton, Piece.cells]
  refine (List.map_congr_left fun c hc => ?_).trans (List.map_id _)
  have hbody : ∀ (o : Nat) (t : Text), ∀ c ∈ Text.cells o t,
      c.intro = [] ∧ c.body = [c.char] ∧ c.outro = [] := by
    intro o t
    induction t generalizing o with
    | nil => simp [Text.cells]
    | cons d t ih =>
      intro c hc
      rcases List.mem_cons.mp hc with rfl | hc
      · exact ⟨rfl, rfl, rfl⟩
      · exact ih _ c hc
  obtain ⟨hi, hb, ho⟩ := hbody 0 source c hc
  cases c
  simp_all [Piece.paint, Piece.shownAt]

/-- What the cells show is what the buffer shows, but for the texts at its ends. -/
theorem Laid.render_eq_cells (h : b.Laid) (hs : b.source ≠ []) :
    b.render = b.intro ++ b.cells.flatMap Cell.render ++ b.outro := by
  rw [render, cells, List.flatMap_assoc]
  have hall : b.output.flatMap (fun p => p.cells.flatMap Cell.render) =
      b.output.flatMap Piece.render :=
    List.flatMap_congr fun p hp =>
      Piece.flatMap_render_cells (h.source_ne_nil hs (mem_of_mem_output hp))
  rw [hall]

theorem Laid.cells_cutting (h : b.Laid) (hc : b.CanCut p offset) {q : Piece} (hq : q ∈ b.pieces) :
    (cutting p offset q).flatMap Piece.cells = q.cells := by
  have hafter : ∀ r, (afterCut p offset r).cells = r.cells := by
    intro r
    have hpaint : (afterCut p offset r).paint = r.paint := by
      funext c
      simp [Piece.paint, Piece.shownAt]
    rw [Piece.cells, Piece.cells, hpaint, afterCut_start, afterCut_source]
  unfold cutting
  split
  next hs =>
    obtain rfl := h.eq_of_start hq hc.mem hs
    obtain ⟨s, u, hp, hoff, -, -, hcut⟩ := h.cutPiece_eq hc
    have hlo := hc.lo
    have hplain := hc.plain
    have hstop : q.stop = offset + u.size := by
      rw [Piece.stop, hp, Text.size_append]
      omega
    have hhi := hc.hi
    rw [List.flatMap_cons, List.flatMap_singleton, hafter, hafter, hcut]
    simp only [Piece.cells]
    rw [hp, Text.cells_append, List.map_append, hoff]
    congr 1
    · refine List.map_congr_left fun c hc => ?_
      have hin := Text.mem_cells hc
      have hne : c.stop ≠ q.stop := by omega
      simp [Piece.paint, Piece.shownAt, hne]
    · refine List.map_congr_left fun c hc => ?_
      have hin := Text.mem_cells hc
      have hne : c.start ≠ q.start := by omega
      have hbody : Piece.shownAt { start := offset, source := u
                                   replacement := q.replacement.map fun _ => [], outro := q.outro
                                   prev := some q.start, next := q.next } c = q.shownAt c := by
        cases hr : q.replacement with
        | none => simp [Piece.shownAt, hr]
        | some t => simp [Piece.shownAt, hr, hne]
      simp only [Piece.paint, hbody, hne, if_false, ite_self]
      simp [Piece.stop, hp, ← hoff, Nat.add_assoc]
  next => simp [hafter]

theorem Linked.output_cutAt (hl : b.Linked) (h : b.Laid) (hc : b.CanCut p offset) :
    (b.cutAt p offset).output = b.output.flatMap (cutting p offset) := by
  apply Visits.output_eq
  rw [show (b.cutAt p offset).first = b.first by rw [cutAt_eq]]
  exact h.visits_cutAt hc hl.walk

theorem Linked.cells_cuts (hl : b.Linked) (h : b.Laid) (hc : Cuts b b') : b'.cells = b.cells := by
  refine (hc.keep (P := fun b' => b'.Linked ∧ b'.cells = b.cells) ?_ h ⟨hl, rfl⟩).2.2
  rintro b₁ p offset h₁ hc₁ ⟨hl₁, heq⟩
  refine ⟨hl₁.cutAt h₁ hc₁, ?_⟩
  rw [← heq, cells, hl₁.output_cutAt h₁ hc₁, List.flatMap_assoc, cells]
  exact List.flatMap_congr fun q hq => h₁.cells_cutting hc₁ (mem_of_mem_output hq)

theorem Tiles.map_cells {α : Type} {f : Cell → α}
    (hf : ∀ (p : Piece) (c : Cell), f (p.paint c) = f c) (ht : Tiles n ps) :
    (ps.flatMap Piece.cells).map f = (Text.cells n (ps.flatMap Piece.source)).map f := by
  induction ps generalizing n with
  | nil => rfl
  | cons p ps ih =>
    obtain ⟨rfl, ht⟩ := ht
    rw [List.flatMap_cons, List.flatMap_cons, Text.cells_append, List.map_append, List.map_append,
      ih ht, Piece.cells, List.map_map, funext fun c => show (f ∘ p.paint) c = f c from hf p c]
    rfl

theorem Linked.perm_cells (hl : b.Linked) (h : b.Laid) :
    (b.cells.map Cell.start).Perm ((Text.cells 0 b.source).map Cell.start) := by
  rw [← h.text, ← h.tiles.map_cells fun _ _ => rfl]
  exact (hl.every.flatMap_right Piece.cells).map Cell.start

theorem Linked.nodup_cells (hl : b.Linked) (h : b.Laid) : (b.cells.map Cell.start).Nodup := by
  refine (hl.perm_cells h).nodup_iff.mpr ?_
  refine (List.pairwise_map.mpr ?_ : List.Pairwise _ _)
  exact (Text.pairwise_cells 0 b.source).imp fun hlt => Nat.ne_of_lt hlt

theorem Painted.cells_eq (hp : Painted f b b') (hg : ∀ p ∈ b.pieces, (f p).cells = p.cells.map g) :
    b'.cells = b.cells.map g := by
  rw [cells, hp.output, List.flatMap_map, cells, List.map_flatMap]
  exact List.flatMap_congr fun p hm => hg p (mem_of_mem_output hm)

end

end EditBuffer

def Stroke.tint : Stroke → Cell → Cell
  | .left n f, c => if c.stop = n then { c with outro := f c.outro } else c
  | .right n f, c => if c.start = n then { c with intro := f c.intro } else c
  | .range start stop text _, c =>
    if c.isIn start stop then { c.hide with body := if c.start = start then text else [] } else c

namespace Operation

def paint : Operation → Cell → Cell
  | .insertLeft offset text, c => if c.stop = offset then { c with outro := c.outro ++ text } else c
  | .prependRight offset text, c =>
    if c.start = offset then { c with intro := text ++ c.intro } else c
  | .remove start stop, c => if c.isIn start stop then c.hide else c
  | .overwrite start stop text, c =>
    if c.isIn start stop then { c.hide with body := if c.start = start then text else [] } else c
  | _, c => c

/-- Takes the characters of a range to the front of the one at `destination`. -/
def relocate (start stop destination : Nat) (cs : List Cell) : List Cell :=
  cs.flatMap fun c =>
    if c.isIn start stop then []
    else if c.start = destination then cs.filter (Cell.isIn start stop) ++ [c]
    else [c]

theorem relocate_eq {d : Nat} {X Y : List Cell}
    (hcs : cs.filter (fun c => !c.isIn s e) = X ++ c :: Y) (hc : c.start = d)
    (hX : ∀ x ∈ X, x.start ≠ d) (hY : ∀ x ∈ Y, x.start ≠ d) :
    relocate s e d cs = X ++ (cs.filter (Cell.isIn s e) ++ c :: Y) := by
  have hskip : ∀ (l : List Cell) (g : Cell → List Cell),
      (l.flatMap fun c => if c.isIn s e then [] else g c) =
        (l.filter fun c => !c.isIn s e).flatMap g := by
    intro l g
    induction l with
    | nil => rfl
    | cons x l ih => cases hx : x.isIn s e <;> simp [hx, ih]
  have hstay : ∀ (l R : List Cell), (∀ x ∈ l, x.start ≠ d) →
      (l.flatMap fun x => if x.start = d then R ++ [x] else [x]) = l := by
    intro l R hl
    have hone : ∀ x ∈ l, (if x.start = d then R ++ [x] else [x]) = [x] := fun x hx =>
      if_neg (hl x hx)
    rw [List.flatMap_congr hone, List.flatMap_singleton']
  rw [relocate, hskip, hcs, List.flatMap_append, List.flatMap_cons, hstay X _ hX, hstay Y _ hY,
    if_pos hc]
  simp

def apply (cs : List Cell) : Operation → List Cell
  | .moveRange start stop destination => relocate start stop destination cs
  | o => cs.map o.paint

def applyAll (cs : List Cell) (os : List Operation) : List Cell := os.foldl apply cs

@[simp] theorem paint_start (o : Operation) (c : Cell) : (o.paint c).start = c.start := by
  unfold paint
  split <;> first | split <;> rfl | rfl

@[simp] theorem paint_char (o : Operation) (c : Cell) : (o.paint c).char = c.char := by
  unfold paint
  split <;> first | split <;> rfl | rfl

@[simp] theorem paint_stop (o : Operation) (c : Cell) : (o.paint c).stop = c.stop := by
  simp [Cell.stop]

end Operation

namespace EditBuffer

variable {l : List Piece}

section
variable {b : EditBuffer} (h : b.Laid)
include h

theorem Laid.isIn_cells (hs : b.IsEdge s) (he : b.IsEdge e) (hp : p ∈ b.pieces)
    (hlo : p.start ≤ c.start) (hhi : c.stop ≤ p.stop) :
    c.isIn s e = (decide (s ≤ p.start) && decide (p.start < e)) := by
  have hos := h.edge_outside hs hp
  have hoe := h.edge_outside he hp
  have hlt := c.start_lt_stop
  have hiff : (s ≤ c.start ∧ c.stop ≤ e) ↔ (s ≤ p.start ∧ p.start < e) := by omega
  rw [Bool.eq_iff_iff]
  simpa [Cell.isIn] using hiff

theorem Laid.paint_stroke {k : Stroke} (hs : b.IsEdge k.footprint.start)
    (he : b.IsEdge k.footprint.stop) (hdrop : k.Drops)
    (hp : p ∈ b.pieces) (hlo : p.start ≤ c.start) (hhi : c.stop ≤ p.stop) :
    (k.paint p).paint c = k.tint (p.paint c) := by
  have hlt := c.start_lt_stop
  have hout := h.edge_outside hs hp
  cases k with
  | left n f =>
    by_cases hn : p.stop = n
    · subst hn
      rw [Stroke.paint_of_touches (k := .left p.stop f) rfl]
      change { p.paint c with outro := if c.stop = p.stop then f p.outro else [] } =
        if c.stop = p.stop then { p.paint c with outro := f (p.paint c).outro } else p.paint c
      by_cases hc : c.stop = p.stop <;> simp [Piece.paint, hc]
    · rw [Stroke.paint_of_not_touches (k := .left n f) hn]
      simp only [Stroke.footprint] at hout
      exact (if_neg (show ¬ c.stop = n by omega)).symm
  | right n f =>
    by_cases hn : p.start = n
    · subst hn
      rw [Stroke.paint_of_touches (k := .right p.start f) rfl]
      change { p.paint c with intro := if c.start = p.start then f p.intro else [] } =
        if c.start = p.start then { p.paint c with intro := f (p.paint c).intro } else p.paint c
      by_cases hc : c.start = p.start <;> simp [Piece.paint, hc]
    · rw [Stroke.paint_of_not_touches (k := .right n f) hn]
      simp only [Stroke.footprint] at hout
      exact (if_neg (show ¬ c.start = n by omega)).symm
  | range s e text keepEdges =>
    obtain rfl : keepEdges = false := hdrop
    have hin : (p.paint c).isIn s e = (decide (s ≤ p.start) && decide (p.start < e)) :=
      h.isIn_cells hs he hp hlo hhi
    by_cases hr : s ≤ p.start ∧ p.start < e
    · rw [Stroke.paint_of_touches (k := .range s e text false) hr, Stroke.tint,
        if_pos (by simpa [hin] using hr), Stroke.change]
      split
      next heq => simp [Piece.paint, showing, Piece.blank, Piece.shownAt, Cell.hide, heq]
      next hne =>
        have hc : (p.paint c).start ≠ s := by
          simp only [Piece.paint_start]
          omega
        rw [Piece.paint_blank, if_neg hc]
        rfl
    · rw [Stroke.paint_of_not_touches (k := .range s e text false) hr, Stroke.tint,
        if_neg (by simpa [hin] using hr)]

/-- A stroke between edges, on the characters of the output. -/
theorem Laid.cells_stroke {k : Stroke} (hs : b.IsEdge k.footprint.start)
    (he : b.IsEdge k.footprint.stop) (hdrop : k.Drops) :
    (b.stroke k).cells = b.cells.map k.tint :=
  (painted_stroke b k).cells_eq fun p hp => Piece.cells_congr (k.paint_keeps p).1 (k.paint_keeps p).2.1
    fun _ hlo hhi => h.paint_stroke hs he hdrop hp hlo hhi

end

section
variable {b : EditBuffer}

theorem Ring.map_start_output {ss : List Nat} (hr : b.Ring (none :: ss.map some)) :
    b.output.map Piece.start = ss := by
  have hc := (Cycle.chain_coe_cons _ _ _).mp hr.chain
  have hhas : ∀ s ∈ ss, b.Has s := fun s hs =>
    place_some.mp ((hr.mem _).mp (.tail _ (List.mem_map_of_mem hs)))
  obtain ⟨ps, hps, rfl⟩ := exists_visits_of_isChain hhas (hc.imp fun _ _ hl => hl.1)
  rw [Visits.output_eq hps]

theorem Rewired.cells_eq (hw : Rewired b b') (h : b.Laid) (hps : ∀ p ∈ ps, p ∈ b.pieces)
    (hout : b'.output.map Piece.start = ps.map Piece.start) :
    b'.cells = ps.flatMap Piece.cells := by
  obtain ⟨f, hf, hlinks⟩ := hw.pieces
  have hsame : ∀ p' ∈ b'.pieces, ∀ p ∈ b.pieces, p'.start = p.start → p'.cells = p.cells := by
    intro p' hp' p hp heq
    rw [hf] at hp'
    obtain ⟨q, hq, rfl⟩ := List.mem_map.mp hp'
    obtain ⟨prev, next, hfq⟩ := hlinks q
    rw [hfq] at heq ⊢
    obtain rfl := h.eq_of_start hq hp heq
    rfl
  have hmem : ∀ p' ∈ b'.output, p' ∈ b'.pieces := fun p' hp' => mem_of_mem_output hp'
  rw [cells]
  generalize b'.output = qs at hout hmem
  induction qs generalizing ps with
  | nil =>
    obtain rfl : ps = [] := by simpa using hout.symm
    rfl
  | cons q qs ih =>
    cases ps with
    | nil => cases hout
    | cons p ps =>
      obtain ⟨hqp, hrest⟩ := List.cons.inj hout
      rw [List.flatMap_cons, List.flatMap_cons, hsame q (hmem q (by simp)) p (hps p (by simp)) hqp,
        ih (fun p hp => hps p (by simp [hp])) hrest fun q hq => hmem q (by simp [hq])]

theorem exists_append_of_flatMap {α β : Type} {f : α → List β} {t : β → Bool} {l : List α}
    {X Y : List β} (hne : ∀ x ∈ l, f x ≠ [])
    (hsame : ∀ x ∈ l, ∀ y ∈ f x, ∀ y' ∈ f x, t y = t y') (heq : l.flatMap f = X ++ Y)
    (hX : ∀ y ∈ X, t y = true) (hY : ∀ y ∈ Y.head?, t y = false) :
    ∃ l₁ l₂, l = l₁ ++ l₂ ∧ l₁.flatMap f = X ∧ l₂.flatMap f = Y := by
  induction l generalizing X with
  | nil =>
    obtain ⟨rfl, rfl⟩ : X = [] ∧ Y = [] := by simpa [eq_comm] using heq
    exact ⟨[], [], rfl, rfl, rfl⟩
  | cons x l ih =>
    cases X with
    | nil => exact ⟨[], x :: l, rfl, rfl, heq⟩
    | cons y X =>
      rw [List.flatMap_cons] at heq
      have hall : ∀ z ∈ f x, t z = true := by
        obtain ⟨w, ws, hw⟩ := List.exists_cons_of_ne_nil (hne x (by simp))
        obtain rfl : w = y := by rw [hw] at heq; exact (List.cons.inj heq).1
        intro z hz
        rw [hsame x (by simp) z hz w (by simp [hw])]
        exact hX w (by simp)
      obtain ⟨m, hm, hrest⟩ | ⟨m, hm, hrest⟩ := List.append_eq_append_iff.mp heq
      · obtain ⟨l₁, l₂, rfl, h₁, h₂⟩ := ih (fun z hz => hne z (by simp [hz]))
          (fun z hz => hsame z (by simp [hz])) hrest fun z hz => hX z (by simp [hm, hz])
        exact ⟨x :: l₁, l₂, rfl, by rw [List.flatMap_cons, h₁, hm], h₂⟩
      · cases m with
        | nil =>
          obtain ⟨l₁, l₂, rfl, h₁, h₂⟩ := ih (X := []) (fun z hz => hne z (by simp [hz]))
            (fun z hz => hsame z (by simp [hz])) (by simpa using hrest.symm) (by simp)
          exact ⟨x :: l₁, l₂, rfl, by rw [List.flatMap_cons, h₁, hm]; simp, h₂⟩
        | cons z m =>
          have hz := hY z (by rw [hrest]; rfl)
          rw [hall z (by rw [hm]; simp)] at hz
          cases hz

end

/-- The characters of a range stand together, the first of them in front and the last at the end. -/
structure Run (s e : Nat) (cs P A Q : List Cell) : Prop where
  eq : cs = P ++ (A ++ Q)
  inside : ∀ c ∈ A, c.isIn s e = true
  before : ∀ c ∈ P, c.isIn s e = false
  behind : ∀ c ∈ Q, c.isIn s e = false
  first : A.head?.map Cell.start = some s
  last : A.getLast?.map Cell.stop = some e

theorem Run.filter_in (h : Run s e cs P A Q) : cs.filter (Cell.isIn s e) = A := by
  rw [h.eq, List.filter_append, List.filter_append, List.filter_eq_self.mpr h.inside,
    List.filter_eq_nil_iff.mpr fun x hx => by simp [h.before x hx],
    List.filter_eq_nil_iff.mpr fun x hx => by simp [h.behind x hx]]
  simp

theorem Run.filter_out (h : Run s e cs P A Q) : cs.filter (fun c => !c.isIn s e) = P ++ Q := by
  rw [h.eq, List.filter_append, List.filter_append,
    List.filter_eq_self.mpr fun x hx => by simp [h.before x hx],
    List.filter_eq_nil_iff.mpr fun x hx => by simp [h.inside x hx],
    List.filter_eq_self.mpr fun x hx => by simp [h.behind x hx]]
  simp

/-- Where a run can be taken: to a character in front of it, or to one behind the next one. -/
def Lands (d : Nat) (P Q : List Cell) : Prop :=
  (∃ c ∈ P, c.start = d) ∨ (∃ c ∈ Q, c.start = d) ∧ Q.head?.map Cell.start ≠ some d

theorem Laid.ends_pieces {b : EditBuffer} (h : b.Laid) (hne : b.source ≠ []) (hl : ∀ p ∈ l, p ∈ b.pieces) (hA : l.flatMap Piece.cells = A)
    (hfirst : A.head?.map Cell.start = some s) (hlast : A.getLast?.map Cell.stop = some e) :
    l.head?.map Piece.start = some s ∧ l.getLast?.map Piece.stop = some e := by
  have hfull : ∀ p ∈ l, p.source ≠ [] := fun p hp => h.source_ne_nil hne (hl p hp)
  constructor
  · cases l with
    | nil =>
      subst hA
      cases hfirst
    | cons p l =>
      obtain ⟨c, cs, hc⟩ := List.exists_cons_of_ne_nil (Piece.cells_ne_nil (hfull p (by simp)))
      have hp := Piece.head?_cells (hfull p (by simp))
      rw [← hA, List.flatMap_cons, hc] at hfirst
      rw [hc] at hp
      exact hp.symm.trans hfirst
  · obtain rfl | ⟨l', p, rfl⟩ := l.eq_nil_or_concat
    · subst hA
      cases hlast
    · rw [List.concat_eq_append] at hA hfull ⊢
      have hp := Piece.getLast?_cells (hfull p (by simp))
      obtain ⟨cs, c, hc⟩ := p.cells.eq_nil_or_concat.resolve_left
        (Piece.cells_ne_nil (hfull p (by simp)))
      rw [List.concat_eq_append] at hc
      rw [← hA, List.flatMap_append, List.flatMap_singleton, hc, ← List.append_assoc,
        List.getLast?_concat] at hlast
      rw [hc, List.getLast?_concat] at hp
      rw [List.getLast?_concat]
      exact hp.symm.trans hlast

theorem Laid.exists_piece_of_mem {b : EditBuffer} (h : b.Laid) {d : Nat}
    (hl : ∀ p ∈ l, p ∈ b.pieces) (hd : b.IsEdge d) (hc : c ∈ l.flatMap Piece.cells)
    (hcd : c.start = d) : ∃ l₁ r l₂, l = l₁ ++ r :: l₂ ∧ r.start = d := by
  obtain ⟨r, hr, hcr⟩ := List.mem_flatMap.mp hc
  have hin := Piece.mem_cells hcr
  have hlt := c.start_lt_stop
  have hout := h.edge_outside hd (hl r hr)
  obtain ⟨l₁, l₂, rfl⟩ := List.append_of_mem hr
  exact ⟨l₁, r, l₂, rfl, by omega⟩

section
variable {b : EditBuffer} (h : b.Laid) (hne : b.source ≠ []) {s e d : Nat} (hs : b.IsEdge s)
  (he : b.IsEdge e)
include h hne hs he

theorem Run.exists_pieces (hrun : Run s e b.cells P A Q) :
    ∃ l₁ l₂ l₃, b.output = l₁ ++ (l₂ ++ l₃) ∧ l₁.flatMap Piece.cells = P ∧
      l₂.flatMap Piece.cells = A ∧ l₃.flatMap Piece.cells = Q := by
  have hfull : ∀ p ∈ b.output, p.cells ≠ [] := fun p hp =>
    Piece.cells_ne_nil (h.source_ne_nil hne (mem_of_mem_output hp))
  have hsame : ∀ p ∈ b.output, ∀ c ∈ p.cells, ∀ c' ∈ p.cells, c.isIn s e = c'.isIn s e := by
    intro p hp c hc c' hc'
    have hm := mem_of_mem_output hp
    rw [h.isIn_cells hs he hm (Piece.mem_cells hc).1 (Piece.mem_cells hc).2,
      h.isIn_cells hs he hm (Piece.mem_cells hc').1 (Piece.mem_cells hc').2]
  have hA : ∀ c ∈ (A ++ Q).head?, (!c.isIn s e) = false := by
    intro c hc
    have hfirst := hrun.first
    cases A with
    | nil => cases hfirst
    | cons a A =>
      obtain rfl := Option.some.inj hc
      simp [hrun.inside a (by simp)]
  obtain ⟨l₁, l', hout, h₁, h'⟩ := exists_append_of_flatMap (t := fun c => !c.isIn s e) hfull
    (fun p hp c hc c' hc' => by rw [hsame p hp c hc c' hc']) hrun.eq
    (fun c hc => by simp [hrun.before c hc]) hA
  obtain ⟨l₂, l₃, rfl, h₂, h₃⟩ := exists_append_of_flatMap (t := fun c => c.isIn s e)
    (fun p hp => hfull p (by simp [hout, hp])) (fun p hp => hsame p (by simp [hout, hp])) h'
    hrun.inside fun c hc => hrun.behind c (List.mem_of_mem_head? hc)
  exact ⟨l₁, l₂, l₃, hout, h₁, h₂, h₃⟩

theorem Run.exists_ring (hl : b.Linked) (hrun : Run s e b.cells P A Q) :
    ∃ (l₁ l₂ l₃ : List Piece) (first last : Piece), (∀ p ∈ l₁ ++ (l₂ ++ l₃), p ∈ b.pieces) ∧
      l₁.flatMap Piece.cells = P ∧ l₂.flatMap Piece.cells = A ∧ l₃.flatMap Piece.cells = Q ∧
      b.startingAt? s = some first ∧ b.endingAt? e = some last ∧
      (l₂.map fun p => some p.start).head? = some (some first.start) ∧
      (l₂.map fun p => some p.start).getLast? = some (some last.start) ∧
      b.Ring (none :: (l₁ ++ (l₂ ++ l₃)).map fun p => some p.start) := by
  obtain ⟨l₁, l₂, l₃, hout, h₁, h₂, h₃⟩ := Run.exists_pieces h hne hs he hrun
  have hmem : ∀ p ∈ l₁ ++ (l₂ ++ l₃), p ∈ b.pieces := fun p hp => mem_of_mem_output (hout ▸ hp)
  obtain ⟨hhead, hlast⟩ := h.ends_pieces hne (fun p hp => hmem p (by simp [hp])) h₂ hrun.first
    hrun.last
  obtain ⟨first, hfirst, hfs⟩ := Option.map_eq_some_iff.mp hhead
  obtain ⟨last, hlast, hls⟩ := Option.map_eq_some_iff.mp hlast
  have hring := hl.ring h
  rw [places, hout] at hring
  exact ⟨l₁, l₂, l₃, first, last, hmem, h₁, h₂, h₃,
    h.startingAt?_eq_some.mpr ⟨hmem first (by simp [List.mem_of_head? hfirst]), hfs⟩,
    h.endingAt?_eq_some.mpr ⟨hmem last (by simp [List.mem_of_getLast? hlast]), hls⟩,
    by simp [hfirst], by simp [hlast], hring⟩

/-- Taking the pieces of a range elsewhere takes its cells there. -/
theorem Linked.cells_relocate (hl : b.Linked) (hd : b.IsEdge d)
    (hrun : Run s e b.cells P A Q) (hland : Lands d P Q) :
    (b.relocate s e d).Linked ∧ Rewired b (b.relocate s e d) ∧
      (b.relocate s e d).cells = Operation.relocate s e d b.cells := by
  obtain ⟨l₁, l₂, l₃, first, last, hmem, h₁, h₂, h₃, hat, hend, hA, hA', hring⟩ :=
    hrun.exists_ring h hne hs he hl
  let S : List Piece → List (Option Nat) := fun l => l.map fun p => some p.start
  -- The destination lies among the other pieces, and the run is put in front of it.
  obtain ⟨X, r, Y, hXY, hrd, hspliced⟩ : ∃ X r Y, l₁ ++ l₃ = X ++ r :: Y ∧ r.start = d ∧
      (b.relink first.start last.start (some d)).Ring (none :: (S X ++ (S l₂ ++ some d :: S Y))) := by
    rcases hland with ⟨c, hc, hcd⟩ | ⟨⟨c, hc, hcd⟩, hhead⟩
    · obtain ⟨m, r, n, rfl, hr⟩ := h.exists_piece_of_mem (fun p hp => hmem p (by simp [hp])) hd
        (h₁ ▸ hc) hcd
      refine ⟨m, r, n ++ l₃, by simp, hr, ?_⟩
      have hrot : b.Ring ((none :: S m ++ some d :: S n) ++ (S l₂ ++ S l₃)) := by
        simpa [S, hr] using hring
      have hsplit : b.Ring (S l₂ ++ (S l₃ ++ none :: S m) ++ (some d :: S n)) := by
        simpa using hrot.rotate
      have hnew := hsplit.splice hA hA' (by simp) rfl
      have hback : (b.relink first.start last.start (some d)).Ring
          ((S l₂ ++ some d :: S n ++ S l₃) ++ (none :: S m)) := by
        simpa using hnew
      simpa [S] using hback.rotate
    · obtain ⟨m, r, n, rfl, hr⟩ := h.exists_piece_of_mem (fun p hp => hmem p (by simp [hp])) hd
        (h₃ ▸ hc) hcd
      have hm : m ≠ [] := by
        rintro rfl
        have hr' := Piece.head?_cells (h.source_ne_nil hne (hmem r (by simp)))
        obtain ⟨c', cs, hcs⟩ := List.exists_cons_of_ne_nil
          (Piece.cells_ne_nil (h.source_ne_nil hne (hmem r (by simp))))
        apply hhead
        rw [← h₃, List.nil_append, List.flatMap_cons, hcs]
        rw [hcs] at hr'
        exact hr'.trans (congrArg some hr)
      refine ⟨l₁ ++ m, r, n, by simp, hr, ?_⟩
      have hrot : b.Ring ((none :: S l₁) ++ (S l₂ ++ S m ++ some d :: S n)) := by
        simpa [S, hr] using hring
      have hsplit : b.Ring (S l₂ ++ S m ++ (some d :: S n ++ none :: S l₁)) := by
        simpa using hrot.rotate
      have hnew := hsplit.splice hA hA' (by simpa [S] using hm) rfl
      have hback : (b.relink first.start last.start (some d)).Ring
          ((S l₂ ++ some d :: S n) ++ (none :: S l₁ ++ S m)) := by
        simpa using hnew
      simpa [S] using hback.rotate
  have hrm : r ∈ b.pieces := by
    have : r ∈ l₁ ++ l₃ := by simp [hXY]
    rcases List.mem_append.mp this with hr | hr <;> exact hmem r (by simp [hr])
  have hreloc : b.relocate s e d = b.relink first.start last.start (some d) := by
    simp [EditBuffer.relocate, hat, hend, h.startingAt?_eq_some.mpr ⟨hrm, hrd⟩, hrd]
  have hw : Rewired b (b.relocate s e d) := hreloc ▸ rewired_relink b _ _ _
  rw [hreloc] at hw ⊢
  refine ⟨hspliced.linked (hw.laid h), hw, ?_⟩
  have hnewout : (b.relink first.start last.start (some d)).output.map Piece.start =
      (X ++ (l₂ ++ r :: Y)).map Piece.start := by
    refine Ring.map_start_output ?_
    simpa [S, hrd, Function.comp_def] using hspliced
  have hsub : ∀ p ∈ X ++ (l₂ ++ r :: Y), p ∈ b.pieces := by
    intro p hp
    have hp' : p ∈ l₁ ++ l₃ ∨ p ∈ l₂ := by
      rw [hXY]
      simp only [List.mem_append, List.mem_cons] at hp ⊢
      tauto
    refine hmem p ?_
    simp only [List.mem_append] at hp' ⊢
    tauto
  obtain ⟨c, cs, hcs⟩ := List.exists_cons_of_ne_nil
    (Piece.cells_ne_nil (h.source_ne_nil hne hrm))
  have hcd : c.start = d := by
    have hr' := Piece.head?_cells (h.source_ne_nil hne hrm)
    rw [hcs] at hr'
    exact (Option.some.inj hr').trans hrd
  have hPQ : P ++ Q = X.flatMap Piece.cells ++ c :: (cs ++ Y.flatMap Piece.cells) := by
    rw [← h₁, ← h₃, ← List.flatMap_append, hXY, List.flatMap_append, List.flatMap_cons, hcs]
    simp
  have hnodup : ((P ++ Q).map Cell.start).Nodup := by
    have hn := hl.nodup_cells h
    rw [hrun.eq] at hn
    refine List.Nodup.sublist (List.Sublist.map _ ?_) hn
    exact (List.sublist_append_right A Q).append_left P
  rw [hPQ, List.map_append, List.map_cons, List.nodup_append] at hnodup
  obtain ⟨-, hcY, hXc⟩ := hnodup
  rw [hw.cells_eq h hsub hnewout, Operation.relocate_eq (hrun.filter_out.trans hPQ) hcd,
    hrun.filter_in, List.flatMap_append, List.flatMap_append, List.flatMap_cons, h₂, hcs]
  · simp
  · intro x hx hxd
    exact hXc _ (List.mem_map_of_mem hx) _ (by simp) (hxd.trans hcd.symm)
  · intro x hx hxd
    exact (List.nodup_cons.mp hcY).1 (List.mem_map.mpr ⟨x, hx, hxd.trans hcd.symm⟩)

end

end EditBuffer
end SfcTsx
