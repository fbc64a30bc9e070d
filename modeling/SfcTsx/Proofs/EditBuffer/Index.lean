import SfcTsx.EditBuffer.Index
import SfcTsx.Proofs.EditBuffer.Links
import Mathlib.Data.List.Induction

namespace SfcTsx

variable {p : Piece} {offset : Nat}

namespace EditBuffer

structure Kept (b b' : EditBuffer) : Prop where
  source : b'.source = b.source
  pieces : ∃ f : Piece → Piece, b'.pieces = b.pieces.map f ∧
    ∀ p, (f p).start = p.start ∧ (f p).source = p.source

section
variable {b b' b'' : EditBuffer}

theorem Kept.refl (b : EditBuffer) : Kept b b := ⟨rfl, id, by simp, fun _ => ⟨rfl, rfl⟩⟩

theorem Kept.trans (h : Kept b b') (h' : Kept b' b'') : Kept b b'' := by
  obtain ⟨f, hf, hkeep⟩ := h.pieces
  obtain ⟨g, hg, hkeep'⟩ := h'.pieces
  refine ⟨h'.source.trans h.source, g ∘ f, by rw [hg, hf, List.map_map], fun p => ?_⟩
  exact ⟨(hkeep' (f p)).1.trans (hkeep p).1, (hkeep' (f p)).2.trans (hkeep p).2⟩

theorem Painted.kept {f : Piece → Piece} (h : Painted f b b') : Kept b b' :=
  ⟨h.source, f, h.pieces, fun p => ⟨(h.keeps p).1, (h.keeps p).2.1⟩⟩

theorem Rewired.kept (h : Rewired b b') : Kept b b' := by
  obtain ⟨f, hf, hlinks⟩ := h.pieces
  refine ⟨h.source, f, hf, fun p => ?_⟩
  obtain ⟨prev, next, hp⟩ := hlinks p
  rw [hp]
  exact ⟨rfl, rfl⟩

theorem Kept.laid (h : Kept b b') (hl : b.Laid) : b'.Laid := by
  obtain ⟨f, hf, hkeep⟩ := h.pieces
  exact hl.map h.source hf hkeep

theorem Kept.exists_iff (h : Kept b b') (P : Nat → Nat → Prop) :
    (∃ p ∈ b'.pieces, P p.start p.stop) ↔ ∃ p ∈ b.pieces, P p.start p.stop := by
  obtain ⟨f, hf, hkeep⟩ := h.pieces
  have hstop (p : Piece) : (f p).stop = p.stop := by rw [Piece.stop, (hkeep p).1, (hkeep p).2, Piece.stop]
  simp [hf, hstop, (hkeep _).1]

theorem Laid.edges_of_ne {q : Piece} (h : b.Laid) (hc : b.CanCut p offset)
    (hq : q ∈ b.pieces) (hne : q ≠ p) : q.start ≠ offset ∧ q.stop ≠ offset ∧ q.stop ≠ p.stop := by
  have hlo := hc.lo
  have hhi := hc.hi
  have hstart := h.edge_outside (n := q.start) ⟨q, hq, .inl rfl⟩ hc.mem
  have hstop := h.edge_outside (n := q.stop) ⟨q, hq, .inr rfl⟩ hc.mem
  exact ⟨by omega, by omega, fun heq => hne (h.eq_of_stop hq hc.mem heq)⟩

theorem Laid.exists_cutAt (h : b.Laid) (hc : b.CanCut p offset)
    (P : Nat → Nat → Prop) : (∃ r ∈ (b.cutAt p offset).pieces, P r.start r.stop) ↔
      P p.start offset ∨ P offset p.stop ∨ ∃ q ∈ b.pieces, q ≠ p ∧ P q.start q.stop := by
  obtain ⟨s, u, hp, hs, -, -, hcut⟩ := h.cutPiece_eq hc
  have hhead : (cutPiece p offset).1.start = p.start ∧ (cutPiece p offset).1.stop = offset := by
    rw [hcut]
    exact ⟨rfl, hs⟩
  have htail : (cutPiece p offset).2.start = offset ∧ (cutPiece p offset).2.stop = p.stop := by
    rw [hcut]
    refine ⟨rfl, ?_⟩
    simp only [Piece.stop, hp, Text.size_append]
    omega
  constructor
  · rintro ⟨r, hr, hP⟩
    rcases (h.mem_cutAt hc).mp hr with rfl | rfl | ⟨q, hq, hne, rfl⟩
    · exact .inl (by simpa [hhead] using hP)
    · exact .inr (.inl (by simpa [htail] using hP))
    · exact .inr (.inr ⟨q, hq, hne, by simpa using hP⟩)
  · rintro (hP | hP | ⟨q, hq, hne, hP⟩)
    · exact ⟨_, (h.mem_cutAt hc).mpr (.inl rfl), by simpa [hhead] using hP⟩
    · exact ⟨_, (h.mem_cutAt hc).mpr (.inr (.inl rfl)), by simpa [htail] using hP⟩
    · exact ⟨_, (h.mem_cutAt hc).mpr (.inr (.inr ⟨q, hq, hne, rfl⟩)), by simpa using hP⟩

end

theorem replace_eq (start stop : Nat) (text : Text) (keepEdges : Bool) :
    replace start stop text keepEdges = (do
      checkRange start stop
      if start = stop then throw (.emptyOverwrite start)
      split start
      split stop
      replaceCut start stop text keepEdges) := rfl

section
variable (b : EditBuffer)

theorem kept_insertion {f : EditBuffer → EditBuffer} (hf : ∀ b, ∃ g, Painted g b (f b))
    (kind : EditKind) (range : Span) (payload : Option Text) :
    Kept b ((do modify f; record kind range payload : Editing Unit).leave b) := by
  obtain ⟨g, hg⟩ := hf b
  exact hg.kept.trans (painted_logged _ _).kept

theorem kept_checkRange (start stop : Nat) : Kept b ((checkRange start stop).leave b) := by
  have hsame : (checkRange start stop).leave b = b := by
    unfold Editing.leave
    obtain ⟨-, e, -, he⟩ | ⟨-, -, -, hk⟩ := checkRange_settled b.source start stop
    · rw [he b rfl]
    · rw [hk b rfl]
  rw [hsame]
  exact .refl b

theorem kept_replaceCut (start stop : Nat) (text : Text) (keepEdges : Bool) :
    Kept b ((replaceCut start stop text keepEdges).leave b) := by
  unfold Editing.leave
  simp only [replaceCut, Editing.bind_apply, Editing.get_apply]
  cases b.pieces.filter fun p => start ≤ p.start && p.start < stop with
  | nil => exact .refl b
  | cons p ps =>
    have hblank (ss : List Nat) : Kept b (b.blankAt ss) :=
      (painted_map b (·.start ∈ ss) _ blank_keeps).kept
    simp only [Editing.bind_apply, blankRun_apply, Editing.modify_apply]
    by_cases hu : unbroken p ps = ps
    · rw [if_pos hu]
      exact (hblank _).trans (painted_map _ (·.start = p.start) _ (showing_keeps text keepEdges)).kept
    · rw [if_neg hu]
      exact hblank _

theorem moveCut_apply (start stop destination : Nat) : moveCut start stop destination b =
    .ok () ((b.logged ⟨.move destination, ⟨start, stop⟩, none⟩).relocate start stop destination) := by
  simp only [moveCut, Editing.bind_apply, record_apply, Editing.get_apply, relocate]
  split <;> rename_i hm <;> simp_all

theorem kept_moveCut (start stop destination : Nat) :
    Kept b ((moveCut start stop destination).leave b) := by
  simp only [Editing.leave, moveCut_apply]
  refine (painted_logged b ⟨.move destination, ⟨start, stop⟩, none⟩).kept.trans ?_
  unfold relocate
  split
  · exact (rewired_relink _ _ _ _).kept
  · exact .refl _

end

/-- Pieces that share a source out among them. -/
structure Divides (source : Text) (ps : List Piece) : Prop where
  cover : ∀ n < source.size, ∃! p, p ∈ ps ∧ p.start ≤ n ∧ n < p.stop
  inside : ∀ p ∈ ps, p.stop ≤ source.size
  boundary : ∀ p ∈ ps, source.isBoundary p.start = true ∧ source.isBoundary p.stop = true
  solid : source ≠ [] → ∀ p ∈ ps, p.start < p.stop
  single : source = [] → ∃ p, ps = [p] ∧ p.start = 0 ∧ p.stop = 0

theorem Laid.divides {b : EditBuffer} (h : b.Laid) : Divides b.source b.pieces where
  cover n hn := by
    obtain ⟨p, hp, hlo, hhi⟩ := h.exists_piece hn
    refine ⟨p, ⟨hp, hlo, hhi⟩, ?_⟩
    rintro q ⟨hq, hlo', hhi'⟩
    by_contra hne
    obtain ⟨hor, -⟩ := h.apart hq hp hne
    omega
  inside p hp := h.stop_le hp
  boundary p hp := ⟨h.isBoundary_of_isEdge ⟨p, hp, .inl rfl⟩, h.isBoundary_of_isEdge ⟨p, hp, .inr rfl⟩⟩
  solid hne p hp := Nat.lt_add_of_pos_right (Text.size_pos (h.source_ne_nil hne hp))
  single hnil := by
    obtain ⟨p, ps, hps⟩ := List.exists_cons_of_ne_nil h.some_piece
    have hp : p ∈ b.pieces := by simp [hps]
    have htext := h.text
    rw [hnil, hps, List.flatMap_cons] at htext
    have hsource : p.source = [] := (List.append_eq_nil_iff.mp htext).1
    have hall := h.solid p hp hsource
    have htiles := h.tiles
    rw [hall] at htiles
    exact ⟨p, hall, htiles.1, by rw [Piece.stop, htiles.1, hsource]; rfl⟩

end EditBuffer

namespace IndexedBuffer

open EditBuffer (CanCut IsEdge Kept tiles_append)

/-- The index has every piece by its start and by its end, and nothing else. -/
structure Exact (x : IndexedBuffer) : Prop where
  laid : x.buffer.Laid
  byStart : ∀ n s, x.byStart n = some s ↔ ∃ p ∈ x.buffer.pieces, p.start = n ∧ p.start = s
  byEnd : ∀ n s, x.byEnd n = some s ↔ ∃ p ∈ x.buffer.pieces, p.stop = n ∧ p.start = s
  searched : ∃ p ∈ x.buffer.pieces, p.start = x.searched

theorem exact_ofText (source : Text) : (ofText source).Exact := by
  refine ⟨EditBuffer.ofText_laid source, fun n s => ?_, fun n s => ?_, by simp [ofText, EditBuffer.ofText]⟩
  · simp [ofText, EditBuffer.ofText, eq_comm]
  · simp [ofText, EditBuffer.ofText, eq_comm, Piece.stop]

section
variable {x : IndexedBuffer} (h : x.Exact)
include h

theorem Exact.kept {b : EditBuffer} (hb : Kept x.buffer b) : Exact { x with buffer := b } :=
  ⟨hb.laid h.laid, fun n s => (h.byStart n s).trans (hb.exists_iff fun u _ => u = n ∧ u = s).symm,
    fun n s => (h.byEnd n s).trans (hb.exists_iff fun u v => v = n ∧ u = s).symm,
    (hb.exists_iff fun u _ => u = x.searched).mpr h.searched⟩

section
variable {p : Piece} {offset : Nat} (hc : x.buffer.CanCut p offset)
include hc

theorem Exact.byStart_cutAt (n s : Nat) : (x.cutAt p offset).byStart n = some s ↔
    ∃ q ∈ (x.cutAt p offset).buffer.pieces, q.start = n ∧ q.start = s := by
  have hlo := hc.lo
  refine Iff.trans ?_ (h.laid.exists_cutAt hc fun u _ => u = n ∧ u = s).symm
  change (if n = offset then some offset else x.byStart n) = some s ↔ _
  split
  next hn =>
    subst hn
    constructor
    · intro heq
      exact .inr (.inl ⟨rfl, Option.some.inj heq⟩)
    · rintro (⟨heq, -⟩ | ⟨-, rfl⟩ | ⟨q, hq, hne, heq, -⟩)
      · omega
      · rfl
      · exact absurd heq (h.laid.edges_of_ne hc hq hne).1
  next hn =>
    rw [h.byStart]
    constructor
    · rintro ⟨q, hq, hqs⟩
      by_cases hqp : q = p
      · exact .inl (hqp ▸ hqs)
      · exact .inr (.inr ⟨q, hq, hqp, hqs⟩)
    · rintro (heq | ⟨heq, -⟩ | ⟨q, hq, -, hqs⟩)
      · exact ⟨p, hc.mem, heq⟩
      · exact absurd heq.symm hn
      · exact ⟨q, hq, hqs⟩

theorem Exact.byEnd_cutAt (n s : Nat) : (x.cutAt p offset).byEnd n = some s ↔
    ∃ q ∈ (x.cutAt p offset).buffer.pieces, q.stop = n ∧ q.start = s := by
  have hhi := hc.hi
  refine Iff.trans ?_ (h.laid.exists_cutAt hc fun u v => v = n ∧ u = s).symm
  change (if n = p.stop then some offset else if n = offset then some p.start else x.byEnd n) =
    some s ↔ _
  split
  next hn =>
    subst hn
    constructor
    · intro heq
      exact .inr (.inl ⟨rfl, Option.some.inj heq⟩)
    · rintro (⟨heq, -⟩ | ⟨-, rfl⟩ | ⟨q, hq, hne, heq, -⟩)
      · omega
      · rfl
      · exact absurd heq (h.laid.edges_of_ne hc hq hne).2.2
  next hn =>
    split
    next hn' =>
      subst hn'
      constructor
      · intro heq
        exact .inl ⟨rfl, Option.some.inj heq⟩
      · rintro (⟨-, rfl⟩ | ⟨heq, -⟩ | ⟨q, hq, hne, heq, -⟩)
        · rfl
        · exact absurd heq.symm hn
        · exact absurd heq (h.laid.edges_of_ne hc hq hne).2.1
    next hn' =>
      rw [h.byEnd]
      constructor
      · rintro ⟨q, hq, hqs⟩
        have hqp : q ≠ p := fun heq => hn (heq ▸ hqs.1).symm
        exact .inr (.inr ⟨q, hq, hqp, hqs⟩)
      · rintro (⟨heq, -⟩ | ⟨heq, -⟩ | ⟨q, hq, -, hqs⟩)
        · exact absurd heq.symm hn'
        · exact absurd heq.symm hn
        · exact ⟨q, hq, hqs⟩

theorem Exact.cutAt : (x.cutAt p offset).Exact :=
  ⟨h.laid.cutAt hc, h.byStart_cutAt hc, h.byEnd_cutAt hc,
    (h.laid.exists_cutAt hc fun u _ => u = p.start).mpr (.inl rfl)⟩

end

theorem Exact.isEdge_iff {n : Nat} :
    ((x.byStart n).isSome || (x.byEnd n).isSome) = true ↔ x.buffer.IsEdge n := by
  simp only [Bool.or_eq_true, Option.isSome_iff_exists, h.byStart, h.byEnd]
  constructor
  · rintro (⟨s, p, hp, hs, -⟩ | ⟨s, p, hp, hs, -⟩)
    · exact ⟨p, hp, .inl hs⟩
    · exact ⟨p, hp, .inr hs⟩
  · rintro ⟨p, hp, hs | hs⟩
    · exact .inl ⟨_, p, hp, hs, rfl⟩
    · exact .inr ⟨_, p, hp, hs, rfl⟩

theorem Exact.walk_succ (hp : p ∈ x.buffer.pieces) (forward : Bool) (fuel : Nat) :
    x.walk forward offset (fuel + 1) (some p.start) =
      if p.start < offset ∧ offset < p.stop then some p
      else x.walk forward offset fuel (x.beside forward p) := by
  rw [walk, h.laid.startingAt?_eq_some.mpr ⟨hp, rfl⟩]
  simp

section
variable {offset : Nat} (hedge : ¬ x.buffer.IsEdge offset) (hle : offset ≤ x.buffer.source.size)
include hedge

include hle in
theorem Exact.walk_forward {l r : List Piece} (hps : x.buffer.pieces = l ++ p :: r)
    (hlt : p.start < offset) {fuel : Nat} (hf : r.length < fuel) :
    ∃ q ∈ x.buffer.pieces, x.walk true offset fuel (some p.start) = some q ∧ q.start < offset ∧
      offset < q.stop := by
  induction fuel generalizing l r p with
  | zero => omega
  | succ fuel ih =>
    have hp : p ∈ x.buffer.pieces := by simp [hps]
    have hne : p.stop ≠ offset := fun heq => hedge ⟨p, hp, .inr heq⟩
    have htiles := h.laid.tiles
    rw [hps, tiles_append] at htiles
    by_cases hin : p.start < offset ∧ offset < p.stop
    · exact ⟨p, hp, by rw [h.walk_succ hp, if_pos hin], hin⟩
    · cases r with
      | nil =>
        have hstop : p.stop = x.buffer.source.size := by
          rw [← h.laid.text, hps, List.flatMap_append, Text.size_append, List.flatMap_singleton,
            Piece.stop, htiles.2.1, Nat.zero_add]
        omega
      | cons q r =>
        have hqp : q.start = p.stop := htiles.2.2.1
        have hnext : x.beside true p = some q.start := (h.byStart _ _).mpr ⟨q, by simp [hps], hqp, rfl⟩
        rw [h.walk_succ hp, if_neg hin, hnext]
        exact ih (l := l ++ [p]) (r := r) (by simp [hps]) (by omega) (by simpa using hf)

theorem Exact.walk_backward {l r : List Piece} (hps : x.buffer.pieces = l ++ p :: r)
    (hlt : offset < p.stop) {fuel : Nat} (hf : l.length < fuel) :
    ∃ q ∈ x.buffer.pieces, x.walk false offset fuel (some p.start) = some q ∧ q.start < offset ∧
      offset < q.stop := by
  induction fuel generalizing l r p with
  | zero => omega
  | succ fuel ih =>
    have hp : p ∈ x.buffer.pieces := by simp [hps]
    have hne : p.start ≠ offset := fun heq => hedge ⟨p, hp, .inl heq⟩
    have htiles := h.laid.tiles
    rw [hps] at htiles
    by_cases hin : p.start < offset ∧ offset < p.stop
    · exact ⟨p, hp, by rw [h.walk_succ hp, if_pos hin], hin⟩
    · rcases List.eq_nil_or_concat l with rfl | ⟨l, q, rfl⟩
      · have hstart : p.start = 0 := htiles.1
        omega
      · rw [List.concat_append] at hps htiles
        have hqp : q.stop = p.start := (tiles_append.mp htiles).2.2.1.symm
        have hnext : x.beside false p = some q.start := (h.byEnd _ _).mpr ⟨q, by simp [hps], hqp, rfl⟩
        rw [h.walk_succ hp, if_neg hin, hnext]
        exact ih hps (by omega) (by simpa using hf)

include hle in
theorem Exact.search_eq_some : ∃ q ∈ x.buffer.pieces, x.search offset = some q ∧ q.start < offset ∧
    offset < q.stop := by
  obtain ⟨p, hp, hps⟩ := h.searched
  obtain ⟨l, r, hlr⟩ := List.append_of_mem hp
  have hlen : l.length < x.buffer.pieces.length ∧ r.length < x.buffer.pieces.length := by
    simp only [hlr, List.length_append, List.length_cons]
    omega
  have hne : p.stop ≠ offset := fun heq => hedge ⟨p, hp, .inr heq⟩
  have hle' : p.start ≤ p.stop := Nat.le_add_right _ _
  rw [search, h.laid.startingAt?_eq_some.mpr ⟨hp, hps⟩]
  by_cases hlt : p.stop < offset
  · simpa only [hlt, decide_true] using h.walk_forward hedge hle hlr (by omega) hlen.2
  · simpa only [hlt, decide_false] using h.walk_backward hedge hlr (by omega) hlen.1

end

end

section
variable {α β : Type} (x : IndexedBuffer)

theorem bind_apply (f : Indexing α) (g : α → Indexing β) : (f >>= g) x = match f x with
    | .ok a x' => g a x'
    | .error e x' => .error e x' := by
  simp only [bind, EStateM.bind]
  cases f x <;> rfl

theorem get_apply : (get : Indexing IndexedBuffer) x = .ok x x := rfl

theorem ite_apply (c : Prop) [Decidable c] (f g : Indexing α) :
    (if c then f else g) x = if c then f x else g x := by
  split <;> rfl

end

/-- On buffers with an exact index, a computation does what another one does on the buffers alone, and
leaves an exact index. -/
def Follows {α : Type} (f : Indexing α) (g : Editing α) : Prop :=
  ∀ x : IndexedBuffer, x.Exact →
    match g x.buffer with
    | .ok a b => ∃ x' : IndexedBuffer, f x = .ok a x' ∧ x'.buffer = b ∧ x'.Exact
    | .error e b => ∃ x' : IndexedBuffer, f x = .error e x' ∧ x'.buffer = b ∧ x'.Exact

section
variable {α β : Type}

theorem Follows.bind {f : Indexing α} {g : Editing α} {f' : α → Indexing β} {g' : α → Editing β}
    (h : Follows f g) (h' : ∀ a, Follows (f' a) (g' a)) : Follows (f >>= f') (g >>= g') := by
  intro x hx
  have hfirst := h x hx
  rw [Editing.bind_apply]
  cases hg : g x.buffer with
  | error e b =>
    rw [hg] at hfirst
    obtain ⟨x', hf, hb, hx'⟩ := hfirst
    exact ⟨x', by rw [bind_apply, hf], hb, hx'⟩
  | ok a b =>
    rw [hg] at hfirst
    obtain ⟨x', hf, rfl, hx'⟩ := hfirst
    rw [bind_apply, hf]
    exact h' a x' hx'

theorem Follows.ite {c : Prop} [Decidable c] {f f' : Indexing α} {g g' : Editing α} (h : Follows f g)
    (h' : Follows f' g') : Follows (if c then f else f') (if c then g else g') := by
  split
  · exact h
  · exact h'

theorem follows_pure (a : α) : Follows (pure a) (pure a) := fun x hx => ⟨x, rfl, rfl, hx⟩

theorem follows_throw (e : EditError) : Follows (throw e : Indexing α) (throw e) := fun x hx =>
  ⟨x, rfl, rfl, hx⟩

theorem follows_lift {g : Editing α} (hg : ∀ b, Kept b (g.leave b)) : Follows (lift g) g := by
  intro x hx
  have hkept := hg x.buffer
  unfold Editing.leave at hkept
  cases h : g x.buffer with
  | ok a b =>
    rw [h] at hkept
    exact ⟨{ x with buffer := b }, by simp only [lift, h], rfl, hx.kept hkept⟩
  | error e b =>
    rw [h] at hkept
    exact ⟨{ x with buffer := b }, by simp only [lift, h], rfl, hx.kept hkept⟩

end

theorem follows_split (offset : Nat) : Follows (split offset) (EditBuffer.split offset) := by
  intro x hx
  have hl := hx.laid
  obtain ⟨-, e, -, he⟩ | ⟨hb, hk⟩ := EditBuffer.checkOffset_settled x.buffer.source offset
  · simp only [EditBuffer.split, Editing.bind_apply, he _ rfl]
    exact ⟨x, by simp only [split, bind_apply, lift, he _ rfl], rfl, hx⟩
  have hk := hk x.buffer rfl
  by_cases hedge : x.buffer.IsEdge offset
  · simp only [EditBuffer.split, Editing.bind_apply, hk, Editing.get_apply, Editing.ite_apply,
      hl.isEdge_iff.mpr hedge, if_true, Editing.pure_apply]
    refine ⟨x, ?_, rfl, hx⟩
    simp only [split, bind_apply, lift, hk, get_apply, ite_apply, hx.isEdge_iff.mpr hedge, if_true]
    rfl
  · obtain ⟨p, hp, hsearch, hlo, hhi⟩ := hx.search_eq_some hedge (Text.le_size_of_isBoundary hb)
    have hfind : x.buffer.pieces.find? (fun p => p.start < offset && offset < p.stop) = some p := by
      cases hf : x.buffer.pieces.find? fun p => p.start < offset && offset < p.stop with
      | none => simpa [hlo, hhi] using List.find?_eq_none.mp hf p hp
      | some q =>
        have hq := List.mem_of_find?_eq_some hf
        obtain ⟨hlo', hhi'⟩ : q.start < offset ∧ offset < q.stop := by simpa using List.find?_some hf
        by_contra hne
        obtain ⟨hor, -⟩ := hl.apart hq hp fun heq => hne (by rw [heq])
        omega
    simp only [EditBuffer.split, split, Editing.bind_apply, bind_apply, lift, hk, Editing.get_apply,
      get_apply, Editing.ite_apply, ite_apply, if_neg (hl.isEdge_iff.not.mpr hedge),
      if_neg (hx.isEdge_iff.not.mpr hedge), hfind, hsearch]
    by_cases hedited : p.replacement.any (!·.isEmpty) = true
    · rw [if_pos hedited]
      exact ⟨x, if_pos hedited, rfl, hx⟩
    · rw [if_neg hedited]
      exact ⟨x.cutAt p offset, if_neg hedited, rfl,
        hx.cutAt ⟨hp, hlo, hhi, hb, Piece.not_edited_iff.mp hedited⟩⟩

theorem follows_insert {kind : EditKind} {text : Text} {f : EditBuffer → EditBuffer}
    (hf : ∀ b, ∃ g, EditBuffer.Painted g b (f b)) :
    Follows (insert kind offset text f) (do
      EditBuffer.split offset
      modify f
      EditBuffer.record kind (.empty offset) text) :=
  (follows_split offset).bind fun _ => follows_lift fun b => EditBuffer.kept_insertion b hf _ _ _

theorem follows_checkRange (start stop : Nat) :
    Follows (lift (EditBuffer.checkRange start stop)) (EditBuffer.checkRange start stop) :=
  follows_lift fun b => EditBuffer.kept_checkRange b start stop

theorem follows_replace (kind : EditKind) (start stop : Nat) (text : Text) (keepEdges : Bool) :
    Follows (replace kind start stop text keepEdges) (do
      EditBuffer.replace start stop text keepEdges
      EditBuffer.record kind ⟨start, stop⟩ text) := by
  by_cases heq : start = stop
  · have hg : (do
        EditBuffer.replace start stop text keepEdges
        EditBuffer.record kind ⟨start, stop⟩ text : Editing Unit) = (do
        EditBuffer.checkRange start stop
        throw (.emptyOverwrite start)) := by
      funext b
      simp only [EditBuffer.replace, Editing.bind_apply, if_pos heq]
      cases EditBuffer.checkRange start stop b <;> rfl
    rw [hg, replace, if_pos heq]
    exact (follows_checkRange start stop).bind fun _ => follows_throw _
  · have hg : (do
        EditBuffer.replace start stop text keepEdges
        EditBuffer.record kind ⟨start, stop⟩ text : Editing Unit) = (do
        EditBuffer.checkRange start stop
        EditBuffer.split start
        EditBuffer.split stop
        EditBuffer.replaceCut start stop text keepEdges
        EditBuffer.record kind ⟨start, stop⟩ text) := by
      simp [EditBuffer.replace_eq, if_neg heq]
    rw [hg, replace, if_neg heq]
    refine (follows_checkRange start stop).bind fun _ => (follows_split start).bind fun _ =>
      (follows_split stop).bind fun _ => ?_
    refine (follows_lift fun b => EditBuffer.kept_replaceCut b _ _ _ _).bind fun _ => ?_
    exact follows_lift fun b => (EditBuffer.painted_logged b _).kept

theorem follows_run (o : Operation) : Follows (run o) o.run := by
  cases o with
  | insertLeft offset text => exact follows_insert fun b => EditBuffer.painted_editLeft b _ _
  | prependLeft offset text => exact follows_insert fun b => EditBuffer.painted_editLeft b _ _
  | insertRight offset text => exact follows_insert fun b => EditBuffer.painted_editRight b _ _
  | prependRight offset text => exact follows_insert fun b => EditBuffer.painted_editRight b _ _
  | append text =>
    exact follows_lift (g := EditBuffer.append text) fun b => ⟨rfl, id, (List.map_id b.pieces).symm, fun _ => ⟨rfl, rfl⟩⟩
  | prepend text =>
    exact follows_lift (g := EditBuffer.prepend text) fun b => ⟨rfl, id, (List.map_id b.pieces).symm, fun _ => ⟨rfl, rfl⟩⟩
  | remove start stop =>
    refine (follows_checkRange start stop).bind fun _ => .ite (follows_pure ()) ?_
    refine (follows_split start).bind fun _ => (follows_split stop).bind fun _ => ?_
    exact follows_lift fun b => EditBuffer.kept_insertion b (fun b => ⟨_, EditBuffer.painted_map b
      (fun p => (start ≤ p.start && p.start < stop) = true) _ EditBuffer.blank_keeps⟩) _ _ _
  | overwrite start stop text => exact follows_replace .overwrite start stop text false
  | update start stop text => exact follows_replace .update start stop text true
  | moveRange start stop destination =>
    refine (follows_checkRange start stop).bind fun _ => .ite (follows_throw _) ?_
    refine (follows_split start).bind fun _ => (follows_split stop).bind fun _ =>
      (follows_split destination).bind fun _ => ?_
    exact follows_lift fun b => EditBuffer.kept_moveCut b start stop destination
  | slice start stop =>
    refine follows_lift fun b => ?_
    simp only [Editing.leave, Editing.bind_apply]
    obtain ⟨e, he⟩ | ⟨text, he⟩ := EditBuffer.slice_cases start stop b
    · simp only [he]
      exact .refl b
    · simp only [he, Editing.pure_apply]
      exact .refl b

theorem Exact.after {x : IndexedBuffer} (h : x.Exact) (o : Operation) :
    (x.after o).buffer = x.buffer.after o ∧ (x.after o).Exact := by
  have hrun := follows_run o x h
  unfold IndexedBuffer.after EditBuffer.after Editing.leave
  cases hb : o.run x.buffer with
  | ok a b =>
    rw [hb] at hrun
    obtain ⟨x', hx, hbuffer, hexact⟩ := hrun
    rw [hx]
    exact ⟨hbuffer, hexact⟩
  | error e b =>
    rw [hb] at hrun
    obtain ⟨x', hx, hbuffer, hexact⟩ := hrun
    rw [hx]
    exact ⟨hbuffer, hexact⟩

theorem Exact.afterAll {x : IndexedBuffer} (h : x.Exact) (os : List Operation) :
    (x.afterAll os).buffer = x.buffer.afterAll os ∧ (x.afterAll os).Exact := by
  induction os generalizing x with
  | nil => exact ⟨rfl, h⟩
  | cons o os ih =>
    obtain ⟨hbuffer, hexact⟩ := h.after o
    obtain ⟨hbuffer', hexact'⟩ := ih hexact
    refine ⟨hbuffer'.trans ?_, hexact'⟩
    rw [hbuffer]
    rfl

/-- After any calls, carried out or refused, the pieces divide the source, the index has exactly their
starts and ends, a cut that is not refused leaves an edge, and the search for a piece to cut finds it. -/
theorem afterAll_addressed (source : Text) (os : List Operation) :
    let x := (ofText source).afterAll os
    x.buffer = (EditBuffer.ofText source).afterAll os ∧
      EditBuffer.Divides source x.buffer.pieces ∧
      (∀ n s, x.byStart n = some s ↔ ∃ p ∈ x.buffer.pieces, p.start = n ∧ p.start = s) ∧
      (∀ n s, x.byEnd n = some s ↔ ∃ p ∈ x.buffer.pieces, p.stop = n ∧ p.start = s) ∧
      (∀ n x', split n x = .ok () x' → x'.buffer.IsEdge n) ∧
      ∀ n, source.isBoundary n = true → x.byStart n = none → x.byEnd n = none →
        ∃ p ∈ x.buffer.pieces, x.search n = some p ∧ p.start < n ∧ n < p.stop := by
  intro x
  obtain ⟨hbuffer, hexact⟩ : x.buffer = (EditBuffer.ofText source).afterAll os ∧ x.Exact :=
    (exact_ofText source).afterAll os
  have hsource : x.buffer.source = source := by
    rw [hbuffer]
    exact (EditBuffer.ofText_sound source).source_afterAll os
  refine ⟨hbuffer, hsource ▸ hexact.laid.divides, hexact.byStart, hexact.byEnd, ?_, ?_⟩
  · intro n x' hok
    have hsplit := follows_split n x hexact
    obtain ⟨e, he⟩ | ⟨b, hb, -, -, hedge⟩ := hexact.laid.split_cases n
    · rw [he] at hsplit
      obtain ⟨x'', hx, -⟩ := hsplit
      cases hx.symm.trans hok
    · rw [hb] at hsplit
      obtain ⟨x'', hx, rfl, -⟩ := hsplit
      cases hx.symm.trans hok
      exact hedge
  · intro n hn hstart hend
    have hedge : ¬ x.buffer.IsEdge n := by
      rw [← hexact.isEdge_iff, hstart, hend]
      decide
    exact hexact.search_eq_some hedge (hsource ▸ Text.le_size_of_isBoundary hn)

end IndexedBuffer
end SfcTsx
