import SfcTsx.EditBuffer.Operation
import SfcTsx.Proofs.EditBuffer.Layout
import Mathlib.Logic.Relation

namespace SfcTsx

variable {b b' : EditBuffer} {offset : Nat} {kind : EditKind}

namespace Editing

variable {α β : Type} (b : EditBuffer)

@[simp] theorem bind_apply (x : Editing α) (f : α → Editing β) : (x >>= f) b =
    match x b with
    | .ok a b' => f a b'
    | .error e b' => .error e b' := by
  simp only [bind, EStateM.bind]
  cases x b <;> rfl

@[simp] theorem pure_apply (a : α) : (pure a : Editing α) b = .ok a b := rfl

@[simp] theorem throw_apply (e : EditError) : (throw e : Editing α) b = .error e b := rfl

@[simp] theorem get_apply : (get : Editing EditBuffer) b = .ok b b := rfl

@[simp] theorem set_apply (b' : EditBuffer) : (set b' : Editing PUnit) b = .ok () b' := rfl

@[simp] theorem modify_apply (f : EditBuffer → EditBuffer) :
    (modify f : Editing PUnit) b = .ok () (f b) := rfl

@[simp] theorem ite_apply (c : Prop) [Decidable c] (x y : Editing α) :
    (if c then x else y) b = if c then x b else y b := by
  split <;> rfl

def leave (x : Editing α) (b : EditBuffer) : EditBuffer :=
  match x b with
  | .ok _ b' => b'
  | .error _ b' => b'

end Editing

namespace Piece

def edited (p : Piece) : Bool := p.replacement.any (!·.isEmpty)

theorem not_edited_iff {p : Piece} : ¬ p.edited = true ↔ p.replacement.getD [] = [] := by
  cases h : p.replacement <;> simp [edited, h]

end Piece

/-- The refusal of a replacement that finds the pieces of its range apart in the output. -/
def EditError.isBreak : EditError → Bool
  | .overwriteAcrossSplit .. => true
  | _ => false

namespace EditBuffer

def after (b : EditBuffer) (o : Operation) : EditBuffer := o.run.leave b

/-- The buffer after calls made one after the other; a refused call does not stop the next one. -/
def afterAll (b : EditBuffer) (os : List Operation) : EditBuffer := os.foldl after b

theorem checkOffset_apply (offset : Nat) (b : EditBuffer) : checkOffset offset b =
      if b.source.size < offset then .error (.outOfBounds offset b.source.size) b
      else if b.source.isBoundary offset then .ok () b
      else .error (.notBoundary offset) b := by
  simp [checkOffset]

theorem checkOffset_settled (source : Text) (n : Nat) :
    (source.isBoundary n = false ∧ ∃ e : EditError, e.isBreak = false ∧
        ∀ b : EditBuffer, b.source = source → checkOffset n b = .error e b) ∨
      source.isBoundary n = true ∧
        ∀ b : EditBuffer, b.source = source → checkOffset n b = .ok () b := by
  cases hn : source.isBoundary n with
  | true =>
    have hle := Nat.not_lt.mpr (Text.le_size_of_isBoundary hn)
    refine .inr ⟨rfl, ?_⟩
    rintro b rfl
    rw [checkOffset_apply, if_neg hle, if_pos hn]
  | false =>
    refine .inl ⟨rfl, if source.size < n then .outOfBounds n source.size else .notBoundary n, ?_, ?_⟩
    · split <;> rfl
    · rintro b rfl
      rw [checkOffset_apply, if_neg (Bool.eq_false_iff.mp hn)]
      split <;> rfl

theorem checkRange_settled (source : Text) (start stop : Nat) :
    (¬ (start ≤ stop ∧ source.isBoundary start = true ∧ source.isBoundary stop = true) ∧
        ∃ e : EditError, e.isBreak = false ∧
          ∀ b : EditBuffer, b.source = source → checkRange start stop b = .error e b) ∨
      start ≤ stop ∧ source.isBoundary start = true ∧ source.isBoundary stop = true ∧
        ∀ b : EditBuffer, b.source = source → checkRange start stop b = .ok () b := by
  by_cases hlt : stop < start
  · refine .inl ⟨fun h => Nat.not_lt.mpr h.1 hlt, .invalidRange start stop, rfl, fun b _ => ?_⟩
    simp [checkRange, if_pos hlt]
  have hrun (b : EditBuffer) : checkRange start stop b = (do
      checkOffset stop
      checkOffset start : Editing Unit) b := by
    simp [checkRange, if_neg hlt]
  obtain ⟨hn, e, hk, he⟩ | ⟨ht, hok⟩ := checkOffset_settled source stop
  · refine .inl ⟨fun h => Bool.eq_false_iff.mp hn h.2.2, e, hk, fun b hb => ?_⟩
    simp [hrun, he b hb]
  obtain ⟨hn, e, hk, he⟩ | ⟨hs, hok'⟩ := checkOffset_settled source start
  · refine .inl ⟨fun h => Bool.eq_false_iff.mp hn h.2.1, e, hk, fun b hb => ?_⟩
    simp [hrun, hok b hb, he b hb]
  · refine .inr ⟨Nat.not_lt.mp hlt, hs, ht, fun b hb => ?_⟩
    simp [hrun, hok b hb, hok' b hb]

/-- One cut of a piece that may be cut. -/
inductive Cut (b : EditBuffer) : EditBuffer → Prop
  | at {p : Piece} {offset : Nat} (hc : b.CanCut p offset) : Cut b (b.cutAt p offset)

abbrev Cuts : EditBuffer → EditBuffer → Prop := Relation.ReflTransGen Cut

theorem Cuts.keep {P : EditBuffer → Prop}
    (hstep : ∀ (b : EditBuffer) (p : Piece) (offset : Nat), b.Laid → b.CanCut p offset → P b →
      P (b.cutAt p offset)) (hc : Cuts b b') (h : b.Laid) (hp : P b) : b'.Laid ∧ P b' := by
  induction hc with
  | refl => exact ⟨h, hp⟩
  | tail _ hcut ih =>
    obtain ⟨hc⟩ := hcut
    exact ⟨ih.1.cutAt hc, hstep _ _ _ ih.1 hc ih.2⟩

theorem Cuts.laid (hc : Cuts b b') (h : b.Laid) : b'.Laid :=
  (hc.keep (P := fun _ => True) (fun _ _ _ _ _ _ => trivial) h trivial).1

theorem Cuts.isEdge {n : Nat} (hc : Cuts b b') (h : b.Laid) (hn : b.IsEdge n) : b'.IsEdge n :=
  (hc.keep (P := fun b => b.IsEdge n) (fun _ _ _ h hc hn => h.isEdge_of_isEdge hc hn) h hn).2

theorem Cuts.frame (hc : Cuts b b') :
    b'.source = b.source ∧ b'.log = b.log ∧ b'.intro = b.intro ∧ b'.outro = b.outro ∧
      b'.first = b.first := by
  induction hc with
  | refl => exact ⟨rfl, rfl, rfl, rfl, rfl⟩
  | tail _ hcut ih =>
    obtain ⟨-⟩ := hcut
    rw [cutAt_eq]
    exact ih

/-- How a call to make an offset an edge goes. -/
inductive Splits (b : EditBuffer) (n : Nat) : Prop where
  | refused (e : EditError) (plain : e.isBreak = false) (out : b.source.isBoundary n = false)
      (run : split n b = .error e b)
  | edge (edge : b.IsEdge n) (run : split n b = .ok () b)
  /-- The offset lies in a piece that shows a text in place of its own. -/
  | edited (p : Piece) (mem : p ∈ b.pieces) (lo : p.start < n) (hi : n < p.stop)
      (shown : p.edited = true) (run : split n b = .error (.splitEdited n) b)
  | cut (p : Piece) (can : b.CanCut p n) (run : split n b = .ok () (b.cutAt p n))

section
variable {b : EditBuffer} (h : b.Laid)
include h

theorem Laid.splits (n : Nat) : Splits b n := by
  obtain ⟨hn, e, hk, he⟩ | ⟨hn, hok⟩ := checkOffset_settled b.source n
  · exact .refused e hk hn (by simp [split, he b rfl])
  by_cases hedge : b.IsEdge n
  · refine .edge hedge ?_
    simp only [split, Editing.bind_apply, hok b rfl, Editing.get_apply, Editing.ite_apply,
      h.isEdge_iff.mpr hedge]
    rfl
  -- the piece that holds the byte at the offset does not start there, and the last one ends elsewhere
  obtain ⟨p, hfind⟩ : ∃ p, b.pieces.find? (fun p => p.start < n && n < p.stop) = some p := by
    rw [← Option.isSome_iff_exists, List.find?_isSome]
    obtain ⟨r, hr, hstop⟩ := h.exists_stop
    have hle := Text.le_size_of_isBoundary hn
    have hne : b.source.size ≠ n := fun heq => hedge ⟨r, hr, .inr (hstop.trans heq)⟩
    obtain ⟨p, hp, hlo, hhi⟩ := h.exists_piece (n := n) (by omega)
    have hstart : p.start ≠ n := fun heq => hedge ⟨p, hp, .inl heq⟩
    exact ⟨p, hp, by simp only [Bool.and_eq_true, decide_eq_true_eq]; omega⟩
  have hp := List.mem_of_find?_eq_some hfind
  obtain ⟨hlo, hhi⟩ : p.start < n ∧ n < p.stop := by simpa using List.find?_some hfind
  have hrun : split n b = if p.edited then .error (.splitEdited n) b else .ok () (b.cutAt p n) := by
    simp only [split, Editing.bind_apply, hok b rfl, Editing.get_apply, Editing.ite_apply,
      if_neg (h.isEdge_iff.not.mpr hedge), hfind]
    rfl
  by_cases hedited : p.edited = true
  · exact .edited p hp hlo hhi hedited (by rw [hrun, if_pos hedited])
  · exact .cut p ⟨hp, hlo, hhi, hn, Piece.not_edited_iff.mp hedited⟩ (by rw [hrun, if_neg hedited])

theorem Laid.split_cases (offset : Nat) : (∃ e, split offset b = .error e b) ∨
      ∃ b', split offset b = .ok () b' ∧ Cuts b b' ∧ b'.Laid ∧ b'.IsEdge offset := by
  cases h.splits offset with
  | refused e plain out run => exact .inl ⟨e, run⟩
  | edge edge run => exact .inr ⟨b, run, .refl, h, edge⟩
  | edited p mem lo hi shown run => exact .inl ⟨_, run⟩
  | cut p can run => exact .inr ⟨_, run, .single ⟨can⟩, h.cutAt can, h.isEdge_cutAt can⟩

theorem Laid.split_isBreak {e : EditError} (he : split offset b = .error e b') :
    e.isBreak = false := by
  cases h.splits offset with
  | refused e plain out run =>
    cases run.symm.trans he
    exact plain
  | edge edge run => cases run.symm.trans he
  | edited p mem lo hi shown run =>
    cases run.symm.trans he
    rfl
  | cut p can run => cases run.symm.trans he

end

def blankAt (b : EditBuffer) (starts : List Nat) : EditBuffer :=
  { b with pieces := b.pieces.map fun p => if p.start ∈ starts then p.blank else p }

/-- Of pieces in source order, those that follow each other in the output, from `previous` on up to
the first break. -/
def unbroken (previous : Piece) : List Piece → List Piece
  | [] => []
  | p :: ps => if previous.next = some p.start then p :: unbroken p ps else []

theorem blankAt_nil (b : EditBuffer) : b.blankAt [] = b := by
  simp [blankAt]

theorem blankAt_blank (b : EditBuffer) (s : Nat) (ss : List Nat) :
    (b.modifyPiece s .blank).blankAt ss = b.blankAt (s :: ss) := by
  simp only [blankAt, modifyPiece, List.map_map]
  congr 2
  funext p
  by_cases hs : p.start = s
  · by_cases hm : p.start ∈ ss
    · simp [hs, Piece.blank]
    · simp_all [Piece.blank]
  · simp [hs]

theorem blankRun_apply (refusal : EditError) (previous : Piece) (ps : List Piece)
    (b : EditBuffer) : blankRun refusal previous ps b =
      if unbroken previous ps = ps then .ok () (b.blankAt (ps.map Piece.start))
      else .error refusal (b.blankAt ((unbroken previous ps).map Piece.start)) := by
  induction ps generalizing previous b with
  | nil => simp [blankRun, unbroken, blankAt_nil]
  | cons p ps ih =>
    simp only [blankRun, Editing.bind_apply, Editing.ite_apply, Editing.throw_apply,
      unbroken]
    by_cases hn : previous.next = some p.start
    · simp [hn, ih, blankAt_blank]
    · simp [hn, blankAt_nil]

def logged (b : EditBuffer) (r : EditRecord) : EditBuffer := { b with log := b.log ++ [r] }

theorem record_apply (kind : EditKind) (range : Span) (payload : Option Text) (b : EditBuffer) :
    record kind range payload b = .ok () (b.logged ⟨kind, range, payload⟩) := rfl

theorem Laid.insertion_cases (h : b.Laid) (offset : Nat) (kind : EditKind)
    (text : Text) (f : EditBuffer → EditBuffer) :
    let x : Editing Unit := do
      split offset
      modify f
      record kind (.empty offset) text
    (∃ e, x b = .error e b) ∨
      ∃ b', x b = .ok () ((f b').logged ⟨kind, .empty offset, some text⟩) ∧ Cuts b b' ∧ b'.Laid ∧
        b'.IsEdge offset := by
  simp only [Editing.bind_apply, Editing.modify_apply, record_apply]
  obtain ⟨e, he⟩ | ⟨b', hb, hc, hl, hedge⟩ := h.split_cases offset
  · exact .inl ⟨e, by simp only [he]⟩
  · exact .inr ⟨b', by simp only [hb], hc, hl, hedge⟩

theorem Laid.split_split_cases (h : b.Laid) (start stop : Nat) : (∃ e, split start b = .error e b) ∨
      (∃ e b₁, split start b = .ok () b₁ ∧ split stop b₁ = .error e b₁ ∧ Cuts b b₁) ∨
      ∃ b₁ b₂, split start b = .ok () b₁ ∧ split stop b₁ = .ok () b₂ ∧ Cuts b b₂ ∧ b₂.Laid ∧
        b₂.IsEdge start ∧ b₂.IsEdge stop := by
  obtain ⟨e, he⟩ | ⟨b₁, hb₁, hc₁, hl₁, hedge₁⟩ := h.split_cases start
  · exact .inl ⟨e, he⟩
  · obtain ⟨e, he⟩ | ⟨b₂, hb₂, hc₂, hl₂, hedge₂⟩ := hl₁.split_cases stop
    · exact .inr (.inl ⟨e, b₁, hb₁, he, hc₁⟩)
    · exact .inr (.inr ⟨b₁, b₂, hb₁, hb₂, hc₁.trans hc₂, hl₂, hc₂.isEdge hl₁ hedge₁, hedge₂⟩)

theorem Laid.remove_cases (h : b.Laid) (start stop : Nat) :
    (∃ e b', remove start stop b = .error e b' ∧ Cuts b b') ∨
      (start = stop ∧ remove start stop b = .ok () b) ∨
      ∃ b', start < stop ∧ Cuts b b' ∧ b'.Laid ∧ b'.IsEdge start ∧ b'.IsEdge stop ∧
        remove start stop b =
          .ok () ((b'.blankRange start stop).logged ⟨.remove, ⟨start, stop⟩, none⟩) := by
  simp only [remove, Editing.bind_apply, Editing.ite_apply, Editing.pure_apply,
    Editing.modify_apply, record_apply]
  obtain ⟨-, e, -, he⟩ | ⟨hle, -, -, hk⟩ := checkRange_settled b.source start stop
  · exact .inl ⟨e, b, by simp only [he b rfl], .refl⟩
  · simp only [hk b rfl]
    split_ifs with heq
    · exact .inr (.inl ⟨heq, rfl⟩)
    · obtain ⟨e, he⟩ | ⟨e, b₁, hb₁, he, hc⟩ | ⟨b₁, b₂, hb₁, hb₂, hc, hl, hs, ht⟩ :=
        h.split_split_cases start stop
      · exact .inl ⟨e, b, by simp only [he], .refl⟩
      · exact .inl ⟨e, b₁, by simp only [hb₁, he], hc⟩
      · exact .inr (.inr ⟨b₂, by omega, hc, hl, hs, ht, by simp only [hb₁, hb₂]⟩)

def withEdge (b : EditBuffer) (offset : Nat) : EditBuffer := (split offset).leave b

def within (b : EditBuffer) (start stop : Nat) : List Piece :=
  b.pieces.filter fun p => start ≤ p.start && p.start < stop

def showing (text : Text) (keepEdges : Bool) (p : Piece) : Piece :=
  if keepEdges then { p with replacement := some text }
  else { p.blank with replacement := some text }

/-- A replacement is refused with nothing but cuts made, or it comes to the pieces of its range: it
blanks them up to a break, and is refused there, or replaces them all. -/
theorem Laid.replace_cases (h : b.Laid) (start stop : Nat) (text : Text) (keepEdges : Bool) :
    (∃ e b', replace start stop text keepEdges b = .error e b' ∧ Cuts b b' ∧ e.isBreak = false) ∨
      ∃ b' p ps, b' = (b.withEdge start).withEdge stop ∧ start < stop ∧ Cuts b b' ∧ b'.Laid ∧
        b'.IsEdge start ∧ b'.IsEdge stop ∧
        b'.within start stop = p :: ps ∧ replace start stop text keepEdges b =
          if unbroken p ps = ps then
            .ok () ((b'.blankAt (ps.map Piece.start)).modifyPiece p.start
              (showing text keepEdges))
          else .error (.overwriteAcrossSplit start stop)
            (b'.blankAt ((unbroken p ps).map Piece.start)) := by
  simp only [replace, Editing.bind_apply, Editing.ite_apply, Editing.throw_apply,
    Editing.get_apply]
  obtain ⟨-, e, hplain, he⟩ | ⟨hle, -, -, hk⟩ := checkRange_settled b.source start stop
  · exact .inl ⟨e, b, by simp only [he b rfl], .refl, hplain⟩
  · simp only [hk b rfl]
    by_cases heq : start = stop
    · exact .inl ⟨_, b, if_pos heq, .refl, rfl⟩
    · simp only [if_neg heq]
      obtain ⟨e, he⟩ | ⟨e, b₁, hb₁, he, hc⟩ | ⟨b₁, b₂, hb₁, hb₂, hc, hl, hs, ht⟩ :=
        h.split_split_cases start stop
      · exact .inl ⟨e, b, by simp only [he], .refl, h.split_isBreak he⟩
      · exact .inl ⟨e, b₁, by simp only [hb₁, he], hc, (hc.laid h).split_isBreak he⟩
      · simp only [hb₁, hb₂]
        cases hw : b₂.pieces.filter fun p => start ≤ p.start && p.start < stop with
        | nil => exact .inl ⟨_, b₂, rfl, hc, rfl⟩
        | cons p ps =>
          have hedges : b₂ = (b.withEdge start).withEdge stop := by
            simp only [withEdge, Editing.leave, hb₁, hb₂]
          refine .inr ⟨b₂, p, ps, hedges, by omega, hc, hl, hs, ht, hw, ?_⟩
          simp only [Editing.bind_apply, blankRun_apply, Editing.modify_apply]
          by_cases hu : unbroken p ps = ps
          · simp only [if_pos hu]
            rfl
          · simp only [if_neg hu]

def withEdges (b : EditBuffer) (start stop destination : Nat) : EditBuffer :=
  ((b.withEdge start).withEdge stop).withEdge destination

/-- Puts the pieces between two edges in front of the piece that starts at `destination`. -/
def relocate (b : EditBuffer) (start stop destination : Nat) : EditBuffer :=
  match b.startingAt? start, b.endingAt? stop with
  | some first, some last =>
    b.relink first.start last.start ((b.startingAt? destination).map Piece.start)
  | _, _ => b

theorem Laid.moveRange_cases (h : b.Laid) (start stop destination : Nat) :
    (∃ e b', moveRange start stop destination b = .error e b' ∧ Cuts b b') ∨
      let b' := b.withEdges start stop destination
      start ≤ stop ∧ ¬(start ≤ destination ∧ destination ≤ stop) ∧ Cuts b b' ∧ b'.Laid ∧
        b'.IsEdge start ∧ b'.IsEdge stop ∧ b'.IsEdge destination ∧
        moveRange start stop destination b =
          .ok () ((b'.logged ⟨.move destination, ⟨start, stop⟩, none⟩).relocate
            start stop destination) := by
  simp only [moveRange, Editing.bind_apply, Editing.ite_apply, Editing.throw_apply,
    Editing.get_apply, record_apply]
  obtain ⟨-, e, -, he⟩ | ⟨hle, -, -, hk⟩ := checkRange_settled b.source start stop
  · exact .inl ⟨e, b, by simp only [he b rfl], .refl⟩
  · simp only [hk b rfl]
    split_ifs with hin
    · exact .inl ⟨_, b, rfl, .refl⟩
    · obtain ⟨e, he⟩ | ⟨e, b₁, hb₁, he, hc⟩ | ⟨b₁, b₂, hb₁, hb₂, hc, hl, hs, ht⟩ :=
        h.split_split_cases start stop
      · exact .inl ⟨e, b, by simp only [he], .refl⟩
      · exact .inl ⟨e, b₁, by simp only [hb₁, he], hc⟩
      · obtain ⟨e, he⟩ | ⟨b₃, hb₃, hc₃, hl₃, hd⟩ := hl.split_cases destination
        · exact .inl ⟨e, b₂, by simp only [hb₁, hb₂, he], hc⟩
        · have hw : b.withEdges start stop destination = b₃ := by
            simp only [withEdges, withEdge, Editing.leave, hb₁, hb₂, hb₃]
          rw [hw]
          refine .inr ⟨hle, hin, hc.trans hc₃, hl₃, hc₃.isEdge hl hs, hc₃.isEdge hl ht, hd, ?_⟩
          simp only [hb₁, hb₂, hb₃, relocate]
          split <;> rename_i hm <;> simp_all

theorem slice_cases (start stop : Nat) (b : EditBuffer) :
    (∃ e, slice start stop b = .error e b) ∨ ∃ text, slice start stop b = .ok text b := by
  simp only [slice, Editing.bind_apply, Editing.get_apply]
  obtain ⟨-, e, -, he⟩ | ⟨-, -, -, hk⟩ := checkRange_settled b.source start stop
  · exact .inl ⟨e, by simp only [he b rfl]⟩
  · simp only [hk b rfl]
    cases sliceSearch start stop b.output with
    | ok text => exact .inr ⟨text, rfl⟩
    | error e => exact .inl ⟨e, rfl⟩

/-- The same pieces in the same places and order; what they show and their insertions, the ends of
the output and the log may differ. -/
structure Painted (f : Piece → Piece) (b b' : EditBuffer) : Prop where
  pieces : b'.pieces = b.pieces.map f
  source : b'.source = b.source
  first : b'.first = b.first
  last : b'.last = b.last
  keeps : ∀ p, (f p).start = p.start ∧ (f p).source = p.source ∧ (f p).prev = p.prev ∧
    (f p).next = p.next

theorem painted_logged (b : EditBuffer) (r : EditRecord) : Painted id b (b.logged r) :=
  ⟨by simp [logged], rfl, rfl, rfl, fun _ => ⟨rfl, rfl, rfl, rfl⟩⟩

theorem Painted.trans {f g : Piece → Piece} {b'' : EditBuffer} (h : Painted f b b')
    (h' : Painted g b' b'') : Painted (g ∘ f) b b'' := by
  refine ⟨by rw [h'.pieces, h.pieces, List.map_map], h'.source.trans h.source,
    h'.first.trans h.first, h'.last.trans h.last, ?_⟩
  intro p
  obtain ⟨h1, h2, h3, h4⟩ := h.keeps p
  obtain ⟨h1', h2', h3', h4'⟩ := h'.keeps (f p)
  exact ⟨h1'.trans h1, h2'.trans h2, h3'.trans h3, h4'.trans h4⟩

theorem painted_map (b : EditBuffer) (c : Piece → Prop) [DecidablePred c] (f : Piece → Piece)
    (hf : ∀ p, (f p).start = p.start ∧ (f p).source = p.source ∧ (f p).prev = p.prev ∧
      (f p).next = p.next) :
    Painted (fun p => if c p then f p else p) b
      { b with pieces := b.pieces.map fun p => if c p then f p else p } := by
  refine ⟨rfl, rfl, rfl, rfl, ?_⟩
  intro p
  split
  · exact hf p
  · exact ⟨rfl, rfl, rfl, rfl⟩

theorem blank_keeps (p : Piece) : p.blank.start = p.start ∧ p.blank.source = p.source ∧
    p.blank.prev = p.prev ∧ p.blank.next = p.next :=
  ⟨rfl, rfl, rfl, rfl⟩

theorem showing_keeps (text : Text) (keepEdges : Bool) (p : Piece) :
    (showing text keepEdges p).start = p.start ∧ (showing text keepEdges p).source = p.source ∧
      (showing text keepEdges p).prev = p.prev ∧ (showing text keepEdges p).next = p.next := by
  unfold showing
  split <;> exact ⟨rfl, rfl, rfl, rfl⟩

theorem painted_editLeft (b : EditBuffer) (offset : Nat) (f : Text → Text) :
    ∃ g, Painted g b (b.editLeft offset f) := by
  unfold editLeft
  split
  · exact ⟨_, painted_map b _ _ fun _ => ⟨rfl, rfl, rfl, rfl⟩⟩
  · exact ⟨id, by simp, rfl, rfl, rfl, fun _ => ⟨rfl, rfl, rfl, rfl⟩⟩

theorem painted_editRight (b : EditBuffer) (offset : Nat) (f : Text → Text) :
    ∃ g, Painted g b (b.editRight offset f) := by
  unfold editRight
  split
  · exact ⟨_, painted_map b _ _ fun _ => ⟨rfl, rfl, rfl, rfl⟩⟩
  · exact ⟨id, by simp, rfl, rfl, rfl, fun _ => ⟨rfl, rfl, rfl, rfl⟩⟩

/-- What a call other than a move does: cuts, and then a new paint. -/
def Touched (b b' : EditBuffer) : Prop := ∃ b₁ f, Cuts b b₁ ∧ Painted f b₁ b'

theorem Cuts.touched (hc : Cuts b b') : Touched b b' :=
  ⟨b', id, hc, by simp, rfl, rfl, rfl, fun _ => ⟨rfl, rfl, rfl, rfl⟩⟩

theorem Laid.touched_insertion (h : b.Laid) {text : Text}
    {f : EditBuffer → EditBuffer} (hf : ∀ b, ∃ g, Painted g b (f b)) : let x : Editing Unit := do
      split offset
      modify f
      record kind (.empty offset) text
    Touched b (x.leave b) := by
  intro x
  obtain ⟨e, he⟩ | ⟨b', hb, hc, -, -⟩ := h.insertion_cases offset kind text f
  · have hx : x.leave b = b := by simp only [Editing.leave, x, he]
    rw [hx]
    exact Cuts.touched .refl
  · have hx : x.leave b = (f b').logged ⟨kind, .empty offset, some text⟩ := by
      simp only [Editing.leave, x, hb]
    obtain ⟨g, hg⟩ := hf b'
    exact hx ▸ ⟨b', _, hc, hg.trans (painted_logged _ _)⟩

theorem Laid.touched_replace (h : b.Laid) {start stop : Nat} {text : Text}
    {keepEdges : Bool} : let x : Editing Unit := do
      replace start stop text keepEdges
      record kind ⟨start, stop⟩ text
    Touched b (x.leave b) := by
  intro x
  obtain ⟨e, b', hb, hc, -⟩ | ⟨b', p, ps, -, -, hc, -, -, -, -, hb⟩ :=
    h.replace_cases start stop text keepEdges
  · have hx : x.leave b = b' := by simp only [Editing.leave, x, Editing.bind_apply, hb]
    exact hx ▸ hc.touched
  · by_cases hu : unbroken p ps = ps
    · rw [if_pos hu] at hb
      have hx : x.leave b = ((b'.blankAt (ps.map Piece.start)).modifyPiece p.start
          (showing text keepEdges)).logged ⟨kind, ⟨start, stop⟩, some text⟩ := by
        simp [Editing.leave, x, hb, record_apply]
      have hblank := painted_map b' (·.start ∈ ps.map Piece.start) _ blank_keeps
      have hshow := painted_map (b'.blankAt (ps.map Piece.start)) (·.start = p.start) _
        (showing_keeps text keepEdges)
      exact hx ▸ ⟨b', _, hc, (hblank.trans hshow).trans (painted_logged _ _)⟩
    · rw [if_neg hu] at hb
      have hx : x.leave b = b'.blankAt ((unbroken p ps).map Piece.start) := by
        simp [Editing.leave, x, hb]
      exact hx ▸ ⟨b', _, hc,
        painted_map b' (·.start ∈ (unbroken p ps).map Piece.start) _ blank_keeps⟩

/-- Every call cuts and paints, but for a move, which relocates pieces after its cuts. -/
theorem Laid.after_cases (h : b.Laid) (o : Operation) : Touched b (b.after o) ∨
      ∃ start stop destination, o = .moveRange start stop destination ∧
        start ≤ stop ∧ ¬(start ≤ destination ∧ destination ≤ stop) ∧
        let b' := b.withEdges start stop destination
        Cuts b b' ∧ b'.Laid ∧ b'.IsEdge start ∧ b'.IsEdge stop ∧ b'.IsEdge destination ∧
        moveRange start stop destination b = .ok () (b.after o) ∧
        b.after o = (b'.logged ⟨.move destination, ⟨start, stop⟩, none⟩).relocate
            start stop destination := by
  cases o with
  | insertLeft offset text => exact .inl (h.touched_insertion fun b => painted_editLeft b _ _)
  | prependLeft offset text => exact .inl (h.touched_insertion fun b => painted_editLeft b _ _)
  | insertRight offset text => exact .inl (h.touched_insertion fun b => painted_editRight b _ _)
  | prependRight offset text => exact .inl (h.touched_insertion fun b => painted_editRight b _ _)
  | append text =>
    exact .inl ⟨b, id, .refl, (List.map_id _).symm, rfl, rfl, rfl, fun _ => ⟨rfl, rfl, rfl, rfl⟩⟩
  | prepend text =>
    exact .inl ⟨b, id, .refl, (List.map_id _).symm, rfl, rfl, rfl, fun _ => ⟨rfl, rfl, rfl, rfl⟩⟩
  | remove start stop =>
    left
    simp only [after, Operation.run, Editing.leave]
    obtain ⟨e, b', hb, hc⟩ | ⟨-, hb⟩ | ⟨b', -, hc, -, -, -, hb⟩ := h.remove_cases start stop
    · simp only [hb]
      exact hc.touched
    · simp only [hb]
      exact Cuts.touched .refl
    · simp only [hb]
      have hblank := painted_map b' (fun p => (start ≤ p.start && p.start < stop) = true) _
        blank_keeps
      exact ⟨b', _, hc, hblank.trans (painted_logged _ _)⟩
  | overwrite start stop text => exact .inl h.touched_replace
  | update start stop text => exact .inl h.touched_replace
  | moveRange start stop destination =>
    obtain ⟨e, b', hb, hc⟩ | ⟨hle, hout, hc, hl, hs, ht, hd, hb⟩ :=
      h.moveRange_cases start stop destination
    · left
      simp only [after, Operation.run, Editing.leave, hb]
      exact hc.touched
    · right
      refine ⟨start, stop, destination, rfl, hle, hout, hc, hl, hs, ht, hd, ?_, ?_⟩
      · simp only [after, Operation.run, Editing.leave, hb]
      · simp only [after, Operation.run, Editing.leave, hb]
  | slice start stop =>
    left
    simp only [after, Operation.run, Editing.leave, Editing.bind_apply]
    obtain ⟨e, hb⟩ | ⟨text, hb⟩ := slice_cases start stop b
    · simp only [hb]
      exact Cuts.touched .refl
    · simp only [hb, Editing.pure_apply]
      exact Cuts.touched .refl

end EditBuffer
end SfcTsx
