import SfcTsx.Proofs.EditBuffer.Walk

namespace SfcTsx.EditBuffer

variable {b b' : EditBuffer} {n : Option Nat}

structure Rewired (b b' : EditBuffer) : Prop where
  source : b'.source = b.source
  intro : b'.intro = b.intro
  outro : b'.outro = b.outro
  log : b'.log = b.log
  pieces : ∃ f : Piece → Piece, b'.pieces = b.pieces.map f ∧
    ∀ p, ∃ prev next, f p = { p with prev, next }

theorem Rewired.refl (b : EditBuffer) : Rewired b b :=
  ⟨rfl, rfl, rfl, rfl, id, by simp, fun p => ⟨p.prev, p.next, rfl⟩⟩

theorem Rewired.trans {b'' : EditBuffer} (h : Rewired b b') (h' : Rewired b' b'') :
    Rewired b b'' := by
  obtain ⟨f, hf, hfp⟩ := h.pieces
  obtain ⟨g, hg, hgp⟩ := h'.pieces
  refine ⟨h'.source.trans h.source, h'.intro.trans h.intro, h'.outro.trans h.outro,
    h'.log.trans h.log, g ∘ f, by rw [hg, hf, List.map_map], ?_⟩
  intro p
  obtain ⟨prev, next, hp⟩ := hfp p
  obtain ⟨prev', next', hp'⟩ := hgp (f p)
  exact ⟨prev', next', by rw [Function.comp, hp', hp]⟩

theorem rewired_setNext (b : EditBuffer) (s : Nat) (n : Option Nat) : Rewired b (b.setNext s n) := by
  refine ⟨rfl, rfl, rfl, rfl, _, rfl, ?_⟩
  intro p
  split
  · exact ⟨p.prev, n, rfl⟩
  · exact ⟨p.prev, p.next, rfl⟩

theorem rewired_setPrev (b : EditBuffer) (s : Nat) (n : Option Nat) : Rewired b (b.setPrev s n) := by
  refine ⟨rfl, rfl, rfl, rfl, _, rfl, ?_⟩
  intro p
  split
  · exact ⟨n, p.next, rfl⟩
  · exact ⟨p.prev, p.next, rfl⟩

theorem rewired_first (b : EditBuffer) (s : Nat) : Rewired b { b with first := s } :=
  ⟨rfl, rfl, rfl, rfl, id, by simp, fun p => ⟨p.prev, p.next, rfl⟩⟩

theorem rewired_last (b : EditBuffer) (s : Nat) : Rewired b { b with last := s } :=
  ⟨rfl, rfl, rfl, rfl, id, by simp, fun p => ⟨p.prev, p.next, rfl⟩⟩

def setNext? (b : EditBuffer) (s : Option Nat) (n : Option Nat) : EditBuffer :=
  match s with
  | some s => b.setNext s n
  | none => b

def setPrev? (b : EditBuffer) (s : Option Nat) (n : Option Nat) : EditBuffer :=
  match s with
  | some s => b.setPrev s n
  | none => b

theorem relinkNeighbours_eq (b : EditBuffer) (first last : Nat) (left right : Option Nat) :
    b.relinkNeighbours first last left right =
      (((b.setNext? (b.prevOf first) (b.nextOf last)).setPrev? (b.nextOf last)
        (b.prevOf first)).setNext? left (some first)).setPrev? right (some last) := rfl

theorem rewired_setNext? (b : EditBuffer) (s n : Option Nat) : Rewired b (b.setNext? s n) := by
  cases s with
  | none => exact .refl b
  | some s => exact rewired_setNext b s n

theorem rewired_setPrev? (b : EditBuffer) (s n : Option Nat) : Rewired b (b.setPrev? s n) := by
  cases s with
  | none => exact .refl b
  | some s => exact rewired_setPrev b s n

theorem rewired_relinkNeighbours (b : EditBuffer) (first last : Nat) (left right : Option Nat) :
    Rewired b (b.relinkNeighbours first last left right) := by
  rw [relinkNeighbours_eq]
  exact (((rewired_setNext? _ _ _).trans (rewired_setPrev? _ _ _)).trans
    (rewired_setNext? _ _ _)).trans (rewired_setPrev? _ _ _)

theorem rewired_releaseEnds (b : EditBuffer) (first last : Nat) :
    Rewired b (b.releaseEnds first last) := by
  unfold releaseEnds
  extract_lets b'
  have hb : Rewired b b' := by
    unfold b'
    split
    · exact rewired_first b _
    · exact .refl b
  split
  · exact hb.trans ((rewired_last b' _).trans (rewired_setNext _ _ none))
  · exact hb

theorem rewired_relink (b : EditBuffer) (first last : Nat) (right : Option Nat) :
    Rewired b (b.relink first last right) := by
  unfold relink
  split
  · exact .refl b
  · extract_lets left b₁ b₂ b₃
    have h₁ : Rewired b b₁ :=
      (rewired_relinkNeighbours b first last left right).trans (rewired_releaseEnds _ _ _)
    have h₂ : Rewired b b₂ := h₁.trans ((rewired_setPrev _ _ _).trans (rewired_setNext _ _ _))
    have h₃ : Rewired b b₃ := by
      unfold b₃
      split
      · exact h₂.trans (rewired_first _ _)
      · exact h₂
    split
    · exact h₃.trans (rewired_last _ _)
    · exact h₃

theorem Rewired.laid (h : Rewired b b') (hl : b.Laid) : b'.Laid := by
  obtain ⟨f, hf, hfp⟩ := h.pieces
  refine hl.map h.source hf ?_
  intro p
  obtain ⟨prev, next, hp⟩ := hfp p
  rw [hp]
  exact ⟨rfl, rfl⟩

def Has (b : EditBuffer) (s : Nat) : Prop := ∃ p ∈ b.pieces, p.start = s

theorem Rewired.has_iff (h : Rewired b b') (s : Nat) : b'.Has s ↔ b.Has s := by
  obtain ⟨f, hf, hfp⟩ := h.pieces
  have hstart (p : Piece) : (f p).start = p.start := by
    obtain ⟨prev, next, hp⟩ := hfp p
    rw [hp]
  simp [Has, hf, hstart]

section
variable (hcl : b.Closed)
include hcl

theorem closed_setNext (s : Nat) (hn : ∀ m, n = some m → b.Has m) :
    (b.setNext s n).Closed := by
  have hhas := (rewired_setNext b s n).has_iff
  refine ⟨(hhas _).mpr hcl.first, ?_⟩
  intro r hr m hm
  simp only [setNext, modifyPiece, List.mem_map] at hr
  obtain ⟨p, hp, rfl⟩ := hr
  apply (hhas m).mpr
  split at hm
  · exact hn m hm
  · exact hcl.next p hp m hm

theorem closed_setPrev (s : Nat) (n : Option Nat) : (b.setPrev s n).Closed := by
  have hhas := (rewired_setPrev b s n).has_iff
  refine ⟨(hhas _).mpr hcl.first, ?_⟩
  intro r hr m hm
  simp only [setPrev, modifyPiece, List.mem_map] at hr
  obtain ⟨p, hp, rfl⟩ := hr
  apply (hhas m).mpr
  split at hm
  · exact hcl.next p hp m hm
  · exact hcl.next p hp m hm

theorem closed_setNext? (s : Option Nat) (hn : ∀ m, n = some m → b.Has m) :
    (b.setNext? s n).Closed := by
  cases s with
  | none => exact hcl
  | some s => exact closed_setNext hcl s hn

theorem closed_setPrev? (s n : Option Nat) : (b.setPrev? s n).Closed := by
  cases s with
  | none => exact hcl
  | some s => exact closed_setPrev hcl s n

theorem Closed.has_nextOf {s m : Nat} (h : b.nextOf s = some m) : b.Has m := by
  obtain ⟨p, hp, hn⟩ := Option.bind_eq_some_iff.mp h
  exact hcl.next p (List.mem_of_find?_eq_some hp) m hn

theorem closed_releaseEnds (first last : Nat) : (b.releaseEnds first last).Closed := by
  unfold releaseEnds
  extract_lets b'
  have hb : b'.Closed := by
    unfold b'
    split
    next hn => exact ⟨hcl.has_nextOf hn, hcl.next⟩
    next => exact hcl
  split
  next prev _ _ =>
    have hb' : Closed { b' with last := prev } := ⟨hb.first, hb.next⟩
    refine closed_setNext hb' _ ?_
    intro m hm
    cases hm
  next => exact hb

theorem closed_relink {first : Nat} (last : Nat) {right : Option Nat}
    (hf : b.Has first) (hr : ∀ m, right = some m → b.Has m) :
    (b.relink first last right).Closed := by
  unfold relink
  split
  · exact hcl
  · extract_lets left b₁ b₂ b₃
    have h₁ : Rewired b b₁ ∧ b₁.Closed := by
      unfold b₁
      rw [relinkNeighbours_eq]
      have w₁ := rewired_setNext? b (b.prevOf first) (b.nextOf last)
      have c₁ := closed_setNext? hcl (b.prevOf first) (n := b.nextOf last)
        fun m hm => hcl.has_nextOf hm
      have w₂ := w₁.trans (rewired_setPrev? _ (b.nextOf last) (b.prevOf first))
      have c₂ := closed_setPrev? c₁ (b.nextOf last) (b.prevOf first)
      have w₃ := w₂.trans (rewired_setNext? _ left (some first))
      have c₃ := closed_setNext? c₂ left (n := some first) fun m hm =>
        (w₂.has_iff m).mpr (Option.some.inj hm ▸ hf)
      exact ⟨(w₃.trans (rewired_setPrev? _ right (some last))).trans (rewired_releaseEnds _ _ _),
        closed_releaseEnds (closed_setPrev? c₃ right (some last)) first last⟩
    have h₂ : Rewired b b₂ ∧ b₂.Closed := by
      have w := h₁.1.trans (rewired_setPrev b₁ first left)
      exact ⟨w.trans (rewired_setNext _ last right),
        closed_setNext (closed_setPrev h₁.2 first left) last fun m hm =>
          (w.has_iff m).mpr (hr m hm)⟩
    have h₃ : b₃.Closed := by
      unfold b₃
      split
      · exact ⟨(h₂.1.has_iff first).mpr hf, h₂.2.next⟩
      · exact h₂.2
    split
    · exact ⟨h₃.first, h₃.next⟩
    · exact h₃

end

/-- The pieces are laid out and the links lead to pieces. -/
structure Sound (b : EditBuffer) : Prop where
  laid : b.Laid
  closed : b.Closed

theorem ofText_sound (source : Text) : (ofText source).Sound :=
  ⟨ofText_laid source, ofText_closed source⟩

theorem Sound.cuts (h : b.Sound) (hc : Cuts b b') : b'.Sound :=
  ⟨hc.laid h.laid, (hc.text h.laid h.closed).1⟩

theorem Sound.painted {f : Piece → Piece} (h : b.Sound) (hp : Painted f b b') : b'.Sound :=
  ⟨hp.laid h.laid, hp.closed h.closed⟩

theorem Sound.relocate (h : b.Sound) (start stop destination : Nat) :
    (b.relocate start stop destination).Sound := by
  unfold EditBuffer.relocate
  split
  next first last hf hl =>
    refine ⟨(rewired_relink b _ _ _).laid h.laid, closed_relink h.closed _ ?_ ?_⟩
    · exact ⟨first, List.mem_of_find?_eq_some hf, rfl⟩
    · intro m hm
      obtain ⟨p, hp, rfl⟩ := Option.map_eq_some_iff.mp hm
      exact ⟨p, List.mem_of_find?_eq_some hp, rfl⟩
  next => exact h

theorem Sound.after (h : b.Sound) (o : Operation) : (b.after o).Sound := by
  obtain ⟨b₁, f, hc, hp⟩ | ⟨start, stop, destination, -, -, -, hc, -, -, -, -, -, ha⟩ :=
    h.laid.after_cases o
  · exact (h.cuts hc).painted hp
  · rw [ha]
    exact ((h.cuts hc).painted (painted_logged _ _)).relocate start stop destination

/-- Whatever calls are made, carried out or refused, the buffer stays sound. -/
theorem Sound.afterAll (h : b.Sound) (os : List Operation) : (b.afterAll os).Sound := by
  induction os generalizing b with
  | nil => exact h
  | cons o os ih => exact ih (h.after o)

theorem Laid.source_after (h : b.Laid) (o : Operation) : (b.after o).source = b.source := by
  obtain ⟨b₁, f, hc, hp⟩ | ⟨start, stop, destination, -, -, -, hc, -, -, -, -, -, ha⟩ :=
    h.after_cases o
  · exact hp.source.trans hc.frame.1
  · rw [ha]
    unfold relocate
    split
    · exact (rewired_relink _ _ _ _).source.trans hc.frame.1
    · exact hc.frame.1

theorem Sound.source_afterAll (h : b.Sound) (os : List Operation) :
    (b.afterAll os).source = b.source := by
  induction os generalizing b with
  | nil => rfl
  | cons o os ih => exact (ih (h.after o)).trans (h.laid.source_after o)

end SfcTsx.EditBuffer
