import SfcTsx.EditBuffer.Edits
import SfcTsx.Proofs.Text
import Mathlib.Data.List.Pairwise
import Mathlib.Tactic.SplitIfs
import Mathlib.Tactic.Tauto

namespace SfcTsx.EditBuffer

variable {b : EditBuffer} {n offset : Nat} {p q : Piece} {ps : List Piece}

/-- Pieces that stand end to end from an offset on. -/
def Tiles : Nat → List Piece → Prop
  | _, [] => True
  | n, p :: ps => p.start = n ∧ Tiles p.stop ps

theorem tiles_append {qs : List Piece} :
    Tiles n (ps ++ qs) ↔ Tiles n ps ∧ Tiles (n + Text.size (ps.flatMap Piece.source)) qs := by
  induction ps generalizing n with
  | nil => simp [Tiles]
  | cons p ps ih =>
    simp only [List.cons_append, Tiles, ih, List.flatMap_cons, Text.size_append, Piece.stop]
    constructor
    · rintro ⟨rfl, h, h'⟩
      exact ⟨⟨rfl, h⟩, by simpa only [Nat.add_assoc] using h'⟩
    · rintro ⟨⟨rfl, h⟩, h'⟩
      exact ⟨rfl, h, by simpa only [Nat.add_assoc] using h'⟩

theorem Tiles.flatMap {f : Piece → List Piece} (h : Tiles n ps)
    (hf : ∀ p ∈ ps, Tiles p.start (f p) ∧ (f p).flatMap Piece.source = p.source) :
    Tiles n (ps.flatMap f) ∧ (ps.flatMap f).flatMap Piece.source = ps.flatMap Piece.source := by
  induction ps generalizing n with
  | nil => simp [Tiles]
  | cons p ps ih =>
    obtain ⟨rfl, h⟩ := h
    obtain ⟨hp, ht⟩ := hf p (by simp)
    obtain ⟨hs, hts⟩ := ih h fun q hq => hf q (by simp [hq])
    refine ⟨tiles_append.mpr ⟨hp, ?_⟩, ?_⟩
    · rw [ht]
      exact hs
    · rw [List.flatMap_cons, List.flatMap_append, ht, hts, List.flatMap_cons]

theorem Tiles.pairwise (h : Tiles n ps) :
    (∀ p ∈ ps, n ≤ p.start) ∧ ps.Pairwise fun p q => p.stop ≤ q.start := by
  induction ps generalizing n with
  | nil => simp
  | cons p ps ih =>
    obtain ⟨rfl, h⟩ := h
    obtain ⟨hge, hpw⟩ := ih h
    refine ⟨?_, List.pairwise_cons.mpr ⟨hge, hpw⟩⟩
    intro q hq
    rcases List.mem_cons.mp hq with rfl | hq
    · exact Nat.le_refl _
    · exact Nat.le_trans (Nat.le_add_right _ _) (hge q hq)

/-- The pieces of the buffer are its source, cut up. -/
structure Laid (b : EditBuffer) : Prop where
  some_piece : b.pieces ≠ []
  tiles : Tiles 0 b.pieces
  text : b.pieces.flatMap Piece.source = b.source
  solid : ∀ p ∈ b.pieces, p.source = [] → b.pieces = [p]

theorem ofText_laid (source : Text) : (ofText source).Laid := by
  refine ⟨by simp [ofText], by simp [ofText, Tiles], by simp [ofText], ?_⟩
  intro p hp _
  simp only [ofText, List.mem_singleton] at hp
  simp [ofText, hp]

theorem Laid.map {b' : EditBuffer} {f : Piece → Piece} (h : b.Laid)
    (hs : b'.source = b.source) (hp : b'.pieces = b.pieces.map f)
    (hf : ∀ p, (f p).start = p.start ∧ (f p).source = p.source) : b'.Laid := by
  have hm : b'.pieces = b.pieces.flatMap fun p => [f p] := by rw [hp, List.map_eq_flatMap]
  obtain ⟨ht, hx⟩ := h.tiles.flatMap (f := fun p => [f p]) fun p _ => by
    simp [Tiles, (hf p).1, (hf p).2]
  refine ⟨by simpa [hp] using h.some_piece, hm ▸ ht, by rw [hm, hx, h.text, hs], ?_⟩
  intro q hq hq0
  rw [hp] at hq
  obtain ⟨p, hpb, rfl⟩ := List.mem_map.mp hq
  rw [hp, h.solid p hpb ((hf p).2 ▸ hq0), List.map_singleton]

section
variable {b : EditBuffer} (h : b.Laid) {p : Piece} {n : Nat}

include h

theorem Laid.placed (hp : p ∈ b.pieces) :
    ∃ pre post, b.source = pre ++ p.source ++ post ∧ pre.size = p.start := by
  obtain ⟨l, r, hl⟩ := List.append_of_mem hp
  have ht := h.tiles
  rw [hl, tiles_append] at ht
  refine ⟨l.flatMap Piece.source, r.flatMap Piece.source, ?_, ?_⟩
  · rw [← h.text, hl, List.flatMap_append, List.flatMap_cons, List.append_assoc]
  · rw [ht.2.1, Nat.zero_add]

theorem Laid.stop_le (hp : p ∈ b.pieces) : p.stop ≤ b.source.size := by
  obtain ⟨pre, post, hs, hpre⟩ := h.placed hp
  rw [hs]
  simp only [Text.size_append, Piece.stop, hpre]
  omega

theorem Laid.sorted : b.pieces.Pairwise fun p q => p.start < q.start := by
  by_cases hall : ∃ p ∈ b.pieces, p.source = []
  · obtain ⟨p, hp, h0⟩ := hall
    rw [h.solid p hp h0]
    exact List.pairwise_singleton _ _
  · refine h.tiles.pairwise.2.imp_of_mem ?_
    intro p q hp _ hle
    have hpos := Text.size_pos fun h0 => hall ⟨p, hp, h0⟩
    simp only [Piece.stop] at hle
    omega

theorem Laid.apart (hp : p ∈ b.pieces) (hq : q ∈ b.pieces) (hne : p ≠ q) :
    (p.stop ≤ q.start ∨ q.stop ≤ p.start) ∧ p.start < p.stop ∧ q.start < q.stop := by
  have wide {p q : Piece} (hp : p ∈ b.pieces) (hq : q ∈ b.pieces) (hne : p ≠ q) :
      p.start < p.stop := by
    have hsrc : p.source ≠ [] := by
      intro h0
      rw [h.solid p hp h0, List.mem_singleton] at hq
      exact hne hq.symm
    have := Text.size_pos hsrc
    simp only [Piece.stop]
    omega
  have hsym : Std.Symm fun p q : Piece => p.stop ≤ q.start ∨ q.stop ≤ p.start :=
    ⟨fun _ _ h => h.symm⟩
  have hpw : b.pieces.Pairwise fun p q => p.stop ≤ q.start ∨ q.stop ≤ p.start :=
    h.tiles.pairwise.2.imp fun h => .inl h
  have hpq := hpw.forall hp hq hne
  exact ⟨hpq, wide hp hq hne, wide hq hp hne.symm⟩

theorem Laid.source_ne_nil (hs : b.source ≠ []) (hp : p ∈ b.pieces) : p.source ≠ [] := by
  intro h0
  have htext := h.text
  rw [h.solid p hp h0, List.flatMap_singleton, h0] at htext
  exact hs htext.symm

theorem Laid.eq_of_start (hp : p ∈ b.pieces) (hq : q ∈ b.pieces)
    (he : p.start = q.start) : p = q := by
  by_contra hne
  obtain ⟨ho, hwp, hwq⟩ := h.apart hp hq hne
  omega

theorem Laid.eq_of_stop (hp : p ∈ b.pieces) (hq : q ∈ b.pieces) (he : p.stop = q.stop) : p = q := by
  by_contra hne
  obtain ⟨ho, hwp, hwq⟩ := h.apart hp hq hne
  omega

theorem Laid.startingAt?_eq_some : b.startingAt? n = some p ↔ p ∈ b.pieces ∧ p.start = n := by
  constructor
  · intro hp
    exact ⟨List.mem_of_find?_eq_some hp, by simpa using List.find?_some hp⟩
  · rintro ⟨hp, rfl⟩
    have hsome : (b.startingAt? p.start).isSome := List.find?_isSome.mpr ⟨p, hp, by simp⟩
    obtain ⟨q, hq⟩ := Option.isSome_iff_exists.mp hsome
    have hs : q.start = p.start := by simpa using List.find?_some hq
    rw [hq, h.eq_of_start (List.mem_of_find?_eq_some hq) hp hs]

theorem Laid.endingAt?_eq_some : b.endingAt? n = some p ↔ p ∈ b.pieces ∧ p.stop = n := by
  constructor
  · intro hp
    exact ⟨List.mem_of_find?_eq_some hp, by simpa using List.find?_some hp⟩
  · rintro ⟨hp, rfl⟩
    have hsome : (b.endingAt? p.stop).isSome := List.find?_isSome.mpr ⟨p, hp, by simp⟩
    obtain ⟨q, hq⟩ := Option.isSome_iff_exists.mp hsome
    have hs : q.stop = p.stop := by simpa using List.find?_some hq
    rw [hq, h.eq_of_stop (List.mem_of_find?_eq_some hq) hp hs]

theorem Laid.exists_stop : ∃ p ∈ b.pieces, p.stop = b.source.size := by
  obtain ⟨ps, p, hps⟩ := List.eq_nil_or_concat b.pieces |>.resolve_left h.some_piece
  rw [List.concat_eq_append] at hps
  have ht := h.tiles
  have hx := h.text
  rw [hps] at ht hx
  refine ⟨p, by simp [hps], ?_⟩
  rw [← hx, List.flatMap_append, List.flatMap_singleton, Text.size_append, Piece.stop,
    (tiles_append.mp ht).2.1, Nat.zero_add]

theorem Laid.exists_piece (hn : n < b.source.size) : ∃ p ∈ b.pieces, p.start ≤ n ∧ n < p.stop := by
  have key : ∀ (m : Nat) (ps : List Piece), Tiles m ps → m ≤ n →
      n < m + Text.size (ps.flatMap Piece.source) → ∃ p ∈ ps, p.start ≤ n ∧ n < p.stop := by
    intro m ps ht hm hlt
    induction ps generalizing m with
    | nil => simp at hlt; omega
    | cons p ps ih =>
      obtain ⟨rfl, ht⟩ := ht
      simp only [List.flatMap_cons, Text.size_append] at hlt
      by_cases hp : n < p.stop
      · exact ⟨p, by simp, hm, hp⟩
      · obtain ⟨q, hq, hb⟩ := ih p.stop ht (by omega) (by simp only [Piece.stop]; omega)
        exact ⟨q, by simp [hq], hb⟩
  exact key 0 b.pieces h.tiles (Nat.zero_le n) (by rw [h.text]; omega)

end

def afterCut (p : Piece) (offset : Nat) (q : Piece) : Piece :=
  if p.next = some q.start then { q with prev := some offset } else q

section
variable (p : Piece) (offset : Nat) (q : Piece)

@[simp] theorem afterCut_start : (afterCut p offset q).start = q.start := by
  unfold afterCut; split <;> rfl

@[simp] theorem afterCut_source : (afterCut p offset q).source = q.source := by
  unfold afterCut; split <;> rfl

@[simp] theorem afterCut_next : (afterCut p offset q).next = q.next := by
  unfold afterCut; split <;> rfl

@[simp] theorem afterCut_intro : (afterCut p offset q).intro = q.intro := by
  unfold afterCut; split <;> rfl

@[simp] theorem afterCut_outro : (afterCut p offset q).outro = q.outro := by
  unfold afterCut; split <;> rfl

@[simp] theorem afterCut_replacement : (afterCut p offset q).replacement = q.replacement := by
  unfold afterCut; split <;> rfl

@[simp] theorem afterCut_stop : (afterCut p offset q).stop = q.stop := by
  simp [Piece.stop]

@[simp] theorem afterCut_render : (afterCut p offset q).render = q.render := by
  simp [Piece.render, Piece.shown]

end

def cutting (p : Piece) (offset : Nat) (q : Piece) : List Piece :=
  if q.start = p.start then
    [afterCut p offset (cutPiece p offset).1, afterCut p offset (cutPiece p offset).2]
  else [afterCut p offset q]

theorem cutAt_eq (b : EditBuffer) (p : Piece) (offset : Nat) : b.cutAt p offset = { b with
      pieces := b.pieces.flatMap (cutting p offset)
      last := if b.last = p.start then offset else b.last } := by
  have hcut : cutting p offset = fun q =>
      (if q.start = p.start then [(cutPiece p offset).1, (cutPiece p offset).2] else [q]).map
        (afterCut p offset) := by
    funext q
    unfold cutting
    split <;> rfl
  rw [hcut, ← List.map_flatMap]
  unfold cutAt
  cases hn : p.next with
  | none =>
    have hid : afterCut p offset = id := by funext q; simp [afterCut, hn]
    simp [hid]
  | some n =>
    have hset : afterCut p offset =
        fun q => if q.start = n then { q with prev := some offset } else q := by
      funext q
      simp [afterCut, hn, eq_comm (a := n)]
    simp only [hset, modifyPiece]

/-- A piece may be cut at an offset: it shows its source or nothing, and the offset is a boundary
strictly inside it. -/
structure CanCut (b : EditBuffer) (p : Piece) (offset : Nat) : Prop where
  mem : p ∈ b.pieces
  lo : p.start < offset
  hi : offset < p.stop
  boundary : b.source.isBoundary offset = true
  plain : p.replacement.getD [] = []

theorem Laid.cutPiece_eq (h : b.Laid) (hc : b.CanCut p offset) :
    ∃ s u, p.source = s ++ u ∧ p.start + s.size = offset ∧ s ≠ [] ∧ u ≠ [] ∧
      cutPiece p offset =
        ({ p with source := s, outro := [], next := some offset },
          { start := offset, source := u, replacement := p.replacement.map fun _ => []
            outro := p.outro, prev := some p.start, next := p.next }) := by
  obtain ⟨pre, post, hsrc, hpre⟩ := h.placed hc.mem
  have hb := hc.boundary
  have hlo := hc.lo
  have hhi := hc.hi
  simp only [Piece.stop] at hhi
  rw [hsrc] at hb
  obtain ⟨s, u, hp, hs⟩ := Text.exists_cut_of_isBoundary hb (by omega) (by omega)
  rw [hpre] at hs
  have hsize : p.source.size = s.size + u.size := by rw [hp, Text.size_append]
  refine ⟨s, u, hp, hs, ?_, ?_, ?_⟩
  · rintro rfl
    simp only [Text.size_nil] at hs
    omega
  · rintro rfl
    simp only [Text.size_nil] at hsize
    omega
  · have hoff : offset - p.start = s.size := by omega
    rw [cutPiece, hoff, hp, Text.slice_head, Text.slice_tail]

theorem Laid.cutAt (h : b.Laid) (hc : b.CanCut p offset) : (b.cutAt p offset).Laid := by
  obtain ⟨s, u, hp, hs, hs0, hu0, hcut⟩ := h.cutPiece_eq hc
  have hsame (q : Piece) (hq : q ∈ b.pieces) :
      Tiles q.start (cutting p offset q) ∧ (cutting p offset q).flatMap Piece.source = q.source := by
    unfold cutting
    split
    next he =>
      obtain rfl := h.eq_of_start hq hc.mem he
      simp [hcut, Tiles, Piece.stop, hs, hp]
    next => simp [Tiles]
  obtain ⟨ht, hx⟩ := h.tiles.flatMap hsame
  rw [cutAt_eq]
  have hsome : b.pieces.flatMap (cutting p offset) ≠ [] := by
    refine List.ne_nil_of_mem (a := afterCut p offset (cutPiece p offset).1) ?_
    exact List.mem_flatMap.mpr ⟨p, hc.mem, by simp [cutting]⟩
  refine ⟨hsome, ht, hx.trans h.text, ?_⟩
  intro r hr hr0
  obtain ⟨q, hq, hrq⟩ := List.mem_flatMap.mp hr
  exfalso
  unfold cutting at hrq
  split at hrq
  next =>
    simp only [hcut, List.mem_cons, List.not_mem_nil, or_false] at hrq
    rcases hrq with rfl | rfl
    · exact hs0 (by simpa using hr0)
    · exact hu0 (by simpa using hr0)
  next hne =>
    simp only [List.mem_singleton] at hrq
    subst hrq
    -- an empty piece would be the only one, and the cut piece is another
    have hall := h.solid q hq (by simpa using hr0)
    have hpq := hc.mem
    rw [hall, List.mem_singleton] at hpq
    exact hne (by rw [hpq])

section
variable {b : EditBuffer} {p : Piece} {offset : Nat} (h : b.Laid) (hc : b.CanCut p offset)
include h hc

theorem Laid.mem_cutAt {r : Piece} : r ∈ (b.cutAt p offset).pieces ↔
    r = afterCut p offset (cutPiece p offset).1 ∨ r = afterCut p offset (cutPiece p offset).2 ∨
      ∃ q ∈ b.pieces, q ≠ p ∧ r = afterCut p offset q := by
  rw [cutAt_eq]
  simp only [List.mem_flatMap]
  constructor
  · rintro ⟨q, hq, hr⟩
    unfold cutting at hr
    split at hr
    next => simp only [List.mem_cons, List.not_mem_nil, or_false] at hr; tauto
    next hne =>
      exact .inr (.inr ⟨q, hq, fun he => hne (by rw [he]), by simpa using hr⟩)
  · rintro (rfl | rfl | ⟨q, hq, hne, rfl⟩)
    · exact ⟨p, hc.mem, by simp [cutting]⟩
    · exact ⟨p, hc.mem, by simp [cutting]⟩
    · have hs : q.start ≠ p.start := fun he => hne (h.eq_of_start hq hc.mem he)
      exact ⟨q, hq, by simp [cutting, hs]⟩

theorem Laid.startingAt?_cutAt (n : Nat) : (b.cutAt p offset).startingAt? n =
    if n = p.start then some (afterCut p offset (cutPiece p offset).1)
    else if n = offset then some (afterCut p offset (cutPiece p offset).2)
    else (b.startingAt? n).map (afterCut p offset) := by
  have hl := h.cutAt hc
  split_ifs with h1 h2
  · exact hl.startingAt?_eq_some.mpr ⟨(h.mem_cutAt hc).mpr (.inl rfl), by simp [cutPiece, h1]⟩
  · exact hl.startingAt?_eq_some.mpr
      ⟨(h.mem_cutAt hc).mpr (.inr (.inl rfl)), by simp [cutPiece, h2]⟩
  · ext r
    rw [hl.startingAt?_eq_some, h.mem_cutAt hc, Option.map_eq_some_iff]
    constructor
    · rintro ⟨rfl | rfl | ⟨q, hq, hne, rfl⟩, hr⟩
      · exact absurd (by simpa [cutPiece] using hr.symm) h1
      · exact absurd (by simpa [cutPiece] using hr.symm) h2
      · exact ⟨q, h.startingAt?_eq_some.mpr ⟨hq, by simpa using hr⟩, rfl⟩
    · rintro ⟨q, hat, rfl⟩
      obtain ⟨hq, rfl⟩ := h.startingAt?_eq_some.mp hat
      exact ⟨.inr (.inr ⟨q, hq, fun he => h1 (by rw [he]), rfl⟩), by simp⟩

end

def IsEdge (b : EditBuffer) (offset : Nat) : Prop :=
  ∃ p ∈ b.pieces, p.start = offset ∨ p.stop = offset

theorem Laid.isEdge_iff (h : b.Laid) :
    ((b.startingAt? n).isSome || (b.endingAt? n).isSome) = true ↔ b.IsEdge n := by
  simp only [Bool.or_eq_true, Option.isSome_iff_exists, h.startingAt?_eq_some, h.endingAt?_eq_some]
  constructor
  · rintro (⟨p, hp, hs⟩ | ⟨p, hp, hs⟩)
    · exact ⟨p, hp, .inl hs⟩
    · exact ⟨p, hp, .inr hs⟩
  · rintro ⟨p, hp, hs | hs⟩
    · exact .inl ⟨p, hp, hs⟩
    · exact .inr ⟨p, hp, hs⟩

theorem Laid.isEdge_cutAt (h : b.Laid)
    (hc : b.CanCut p offset) : (b.cutAt p offset).IsEdge offset :=
  ⟨_, (h.mem_cutAt hc).mpr (.inr (.inl rfl)), .inl (by simp [cutPiece])⟩

theorem Laid.isEdge_of_isEdge (h : b.Laid)
    (hc : b.CanCut p offset) (hn : b.IsEdge n) : (b.cutAt p offset).IsEdge n := by
  obtain ⟨q, hq, he⟩ := hn
  by_cases hqp : q = p
  · subst hqp
    obtain ⟨s, u, hp, hs, -, -, hcut⟩ := h.cutPiece_eq hc
    rcases he with rfl | rfl
    · exact ⟨_, (h.mem_cutAt hc).mpr (.inl rfl), .inl (by simp [cutPiece])⟩
    · refine ⟨_, (h.mem_cutAt hc).mpr (.inr (.inl rfl)), .inr ?_⟩
      rw [afterCut_stop, hcut]
      simp only [Piece.stop, hp, Text.size_append]
      omega
  · exact ⟨_, (h.mem_cutAt hc).mpr (.inr (.inr ⟨q, hq, hqp, rfl⟩)), by simpa using he⟩

section
variable {b : EditBuffer} {n : Nat} (h : b.Laid) (hn : b.IsEdge n)
include h hn

theorem Laid.edge_le : n ≤ b.source.size := by
  obtain ⟨p, hp, hs⟩ := hn
  have hle := h.stop_le hp
  simp only [Piece.stop] at hle hs
  omega

theorem Laid.isBoundary_of_isEdge : b.source.isBoundary n = true := by
  obtain ⟨p, hp, hpn⟩ := hn
  obtain ⟨l, r, hpieces⟩ := List.append_of_mem hp
  have htiles := h.tiles
  rw [hpieces, tiles_append] at htiles
  obtain ⟨-, hstart, -⟩ := htiles
  have htext : b.source = l.flatMap Piece.source ++ (p.source ++ r.flatMap Piece.source) := by
    rw [← h.text, hpieces, List.flatMap_append, List.flatMap_cons]
  have hsize : Text.size (l.flatMap Piece.source) = p.start := by omega
  rcases hpn with rfl | rfl
  · exact Text.At.isBoundary ⟨_, htext, hsize⟩
  · have hat : Text.At b.source p.stop (r.flatMap Piece.source) := by
      refine ⟨l.flatMap Piece.source ++ p.source, ?_, ?_⟩
      · rw [htext, List.append_assoc]
      · rw [Text.size_append, hsize]
        rfl
    exact hat.isBoundary

theorem Laid.edge_outside (hp : p ∈ b.pieces) : n ≤ p.start ∨ p.stop ≤ n := by
  obtain ⟨q, hq, hs⟩ := hn
  by_cases hqp : q = p
  · subst hqp
    omega
  · obtain ⟨ho, hwq, hwp⟩ := h.apart hq hp hqp
    omega

theorem Laid.edge_eq_zero (hend : ∀ p ∈ b.pieces, p.stop ≠ n) : n = 0 := by
  by_contra h0
  have hle := h.edge_le hn
  obtain ⟨p, hp, hlo, hhi⟩ := h.exists_piece (n := n - 1) (by omega)
  have hout := h.edge_outside hn hp
  have hne := hend p hp
  omega

theorem Laid.edge_eq_size (hstart : ∀ p ∈ b.pieces, p.start ≠ n) : n = b.source.size := by
  by_contra h0
  have hle := h.edge_le hn
  obtain ⟨p, hp, hlo, hhi⟩ := h.exists_piece (n := n) (by omega)
  have hout := h.edge_outside hn hp
  have hne := hstart p hp
  omega

end

end SfcTsx.EditBuffer
