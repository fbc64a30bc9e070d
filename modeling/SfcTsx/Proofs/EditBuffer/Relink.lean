import SfcTsx.Proofs.EditBuffer.Links

namespace SfcTsx.EditBuffer

def succ (b : EditBuffer) : Option Nat → Option Nat
  | some s => b.nextOf s
  | none => some b.first

def pred (b : EditBuffer) : Option Nat → Option Nat
  | some s => b.prevOf s
  | none => some b.last

section
variable {b : EditBuffer} {s t : Nat} {n : Option Nat}

theorem bind_startingAt?_modifyPiece {f : Piece → Piece} {g : Piece → Option Nat}
    (hf : ∀ p, (f p).start = p.start) : ((b.modifyPiece s f).startingAt? t).bind g =
      if s = t then (b.startingAt? t).bind fun p => g (f p) else (b.startingAt? t).bind g := by
  have hkey : ((·.start == t) ∘ fun p : Piece => if p.start = s then f p else p) =
      (·.start == t) := by
    funext p
    simp only [Function.comp]
    split
    · rw [hf]
    · rfl
  rw [startingAt?, modifyPiece, List.find?_map, hkey, ← startingAt?]
  cases hp : b.startingAt? t with
  | none => simp
  | some p =>
    obtain rfl := start_of_startingAt? hp
    by_cases hs : p.start = s
    · simp [hs]
    · simp [hs, Ne.symm hs]

theorem Has.startingAt? (ht : b.Has t) : ∃ p, b.startingAt? t = some p ∧ p.start = t := by
  obtain ⟨p, hp, hs⟩ := ht
  have hsome : (b.startingAt? t).isSome := List.find?_isSome.mpr ⟨p, hp, by simp [hs]⟩
  obtain ⟨q, hq⟩ := Option.isSome_iff_exists.mp hsome
  exact ⟨q, hq, start_of_startingAt? hq⟩

theorem nextOf_setNext (ht : b.Has t) :
    (b.setNext s n).nextOf t = if s = t then n else b.nextOf t := by
  obtain ⟨p, hp, -⟩ := ht.startingAt?
  refine (bind_startingAt?_modifyPiece (f := fun p => { p with next := n }) fun _ => rfl).trans ?_
  rw [nextOf, hp]
  rfl

theorem prevOf_setPrev (ht : b.Has t) :
    (b.setPrev s n).prevOf t = if s = t then n else b.prevOf t := by
  obtain ⟨p, hp, -⟩ := ht.startingAt?
  refine (bind_startingAt?_modifyPiece (f := fun p => { p with prev := n }) fun _ => rfl).trans ?_
  rw [prevOf, hp]
  rfl

theorem prevOf_setNext : (b.setNext s n).prevOf t = b.prevOf t :=
  (bind_startingAt?_modifyPiece (f := fun p => { p with next := n }) fun _ => rfl).trans (ite_self _)

theorem nextOf_setPrev : (b.setPrev s n).nextOf t = b.nextOf t :=
  (bind_startingAt?_modifyPiece (f := fun p => { p with prev := n }) fun _ => rfl).trans (ite_self _)

end

section
variable {b : EditBuffer} {t : Nat} {s n : Option Nat}

@[simp] theorem has_setNext? : (b.setNext? s n).Has t ↔ b.Has t :=
  (rewired_setNext? b s n).has_iff t

@[simp] theorem has_setPrev? : (b.setPrev? s n).Has t ↔ b.Has t :=
  (rewired_setPrev? b s n).has_iff t

theorem nextOf_setNext? (ht : b.Has t) :
    (b.setNext? s n).nextOf t = if s = some t then n else b.nextOf t := by
  cases s with
  | none => simp [setNext?]
  | some s => simp [setNext?, nextOf_setNext ht]

theorem prevOf_setPrev? (ht : b.Has t) :
    (b.setPrev? s n).prevOf t = if s = some t then n else b.prevOf t := by
  cases s with
  | none => simp [setPrev?]
  | some s => simp [setPrev?, prevOf_setPrev ht]

theorem prevOf_setNext? : (b.setNext? s n).prevOf t = b.prevOf t := by
  cases s with
  | none => rfl
  | some s => exact prevOf_setNext

theorem nextOf_setPrev? : (b.setPrev? s n).nextOf t = b.nextOf t := by
  cases s with
  | none => rfl
  | some s => exact nextOf_setPrev

theorem ends_setNext? : (b.setNext? s n).first = b.first ∧ (b.setNext? s n).last = b.last := by
  cases s <;> exact ⟨rfl, rfl⟩

theorem ends_setPrev? : (b.setPrev? s n).first = b.first ∧ (b.setPrev? s n).last = b.last := by
  cases s <;> exact ⟨rfl, rfl⟩

end

section
variable {b : EditBuffer} {first last t : Nat} {left right : Option Nat}

theorem nextOf_relinkNeighbours (ht : b.Has t) :
    (b.relinkNeighbours first last left right).nextOf t =
      if left = some t then some first
      else if b.prevOf first = some t then b.nextOf last else b.nextOf t := by
  rw [relinkNeighbours_eq, nextOf_setPrev?, nextOf_setNext? (by simpa using ht), nextOf_setPrev?,
    nextOf_setNext? ht]

theorem prevOf_relinkNeighbours (ht : b.Has t) :
    (b.relinkNeighbours first last left right).prevOf t =
      if right = some t then some last
      else if b.nextOf last = some t then b.prevOf first else b.prevOf t := by
  rw [relinkNeighbours_eq, prevOf_setPrev? (by simpa using ht), prevOf_setNext?,
    prevOf_setPrev? (by simpa using ht), prevOf_setNext?]

theorem ends_relinkNeighbours : (b.relinkNeighbours first last left right).first = b.first ∧
    (b.relinkNeighbours first last left right).last = b.last := by
  rw [relinkNeighbours_eq, ends_setPrev?.1, ends_setNext?.1, ends_setPrev?.1, ends_setNext?.1,
    ends_setPrev?.2, ends_setNext?.2, ends_setPrev?.2, ends_setNext?.2]
  exact ⟨rfl, rfl⟩

theorem releaseEnds_eq (b : EditBuffer) (first last : Nat) :
    b.releaseEnds first last =
      match b.prevOf first, b.nextOf last with
      | none, some n => { b with first := n }
      | some m, none => { b with last := m }.setNext m none
      | _, _ => b := by
  unfold releaseEnds
  cases hp : b.prevOf first with
  | none =>
    cases hn : b.nextOf last with
    | none => simp only [hp, hn]
    | some n =>
      have hn' : nextOf { b with first := n } last = some n := hn
      simp only [hn']
  | some m =>
    cases hn : b.nextOf last with
    | none => simp only [hp, hn]
    | some n => simp only [hn]

theorem releaseEnds_links (first last : Nat) (ht : b.Has t) :
    (b.releaseEnds first last).nextOf t =
        (if b.nextOf last = none ∧ b.prevOf first = some t then none else b.nextOf t) ∧
      (b.releaseEnds first last).prevOf t = b.prevOf t ∧
      (b.releaseEnds first last).first =
        (if b.prevOf first = none then (b.nextOf last).getD b.first else b.first) ∧
      (b.releaseEnds first last).last =
        (if b.nextOf last = none then (b.prevOf first).getD b.last else b.last) := by
  rw [releaseEnds_eq]
  cases hp : b.prevOf first with
  | none =>
    cases hn : b.nextOf last with
    | none => simp
    | some n => exact ⟨by simp; rfl, rfl, by simp, by simp⟩
  | some m =>
    cases hn : b.nextOf last with
    | none =>
      have hm : Has { b with last := m } t := ht
      refine ⟨?_, prevOf_setNext, by simp [setNext, modifyPiece], by simp [setNext, modifyPiece]⟩
      rw [nextOf_setNext hm]
      simp [nextOf, startingAt?]
    | some n => simp

end

theorem relink_eq {b : EditBuffer} {first last : Nat} {right : Option Nat}
    (h : right = none → last ≠ b.last) :
    b.relink first last right =
      let left := b.pred right
      let b := ((b.relinkNeighbours first last left right).releaseEnds first last).setPrev first left
      let b := b.setNext last right
      { b with first := if left = none then first else b.first,
               last := if right = none then last else b.last } := by
  have hmove : ¬(right.isNone && last = b.last) = true := by
    cases right with
    | none => simpa using h rfl
    | some _ => simp
  unfold relink
  rw [if_neg hmove]
  cases right with
  | none => rfl
  | some r =>
    obtain hleft | ⟨l, hleft⟩ := Option.eq_none_or_eq_some (b.prevOf r)
    · simp only [pred, hleft]
      rfl
    · simp only [pred, hleft]
      rfl

theorem relink_links {b : EditBuffer} (first : Nat) {last t : Nat} {right : Option Nat}
    (h : right = none → last ≠ b.last) (ht : b.Has t) :
    let b' := b.relinkNeighbours first last (b.pred right) right
    (b.relink first last right).nextOf t = (if last = t then right
        else if b'.nextOf last = none ∧ b'.prevOf first = some t then none else b'.nextOf t) ∧
      (b.relink first last right).prevOf t = (if first = t then b.pred right else b'.prevOf t) ∧
      (b.relink first last right).first = (if b.pred right = none then first
        else if b'.prevOf first = none then (b'.nextOf last).getD b.first else b.first) ∧
      (b.relink first last right).last = (if right = none then last
        else if b'.nextOf last = none then (b'.prevOf first).getD b.last else b.last) := by
  have hn := (rewired_relinkNeighbours b first last (b.pred right) right).has_iff
  have he := (rewired_releaseEnds (b.relinkNeighbours first last (b.pred right) right) first
    last).has_iff
  have hp := (rewired_setPrev ((b.relinkNeighbours first last (b.pred right) right).releaseEnds
    first last) first (b.pred right)).has_iff
  obtain ⟨hnext, hprev, hfirst, hlast⟩ := releaseEnds_links first last ((hn t).mpr ht)
  rw [ends_relinkNeighbours.1] at hfirst
  rw [ends_relinkNeighbours.2] at hlast
  rw [relink_eq h]
  refine ⟨?_, ?_, ?_, ?_⟩
  · have := nextOf_setNext (s := last) (n := right) ((hp t).mpr ((he t).mpr ((hn t).mpr ht)))
    rw [nextOf_setPrev, hnext] at this
    exact this
  · have := prevOf_setPrev (s := first) (n := b.pred right) ((he t).mpr ((hn t).mpr ht))
    rw [hprev] at this
    exact prevOf_setNext.trans this
  · exact congrArg (if b.pred right = none then first else ·) hfirst
  · exact congrArg (if right = none then last else ·) hlast

/-- A place of the ring: a piece, or the place between the last and the first one. -/
def Place (b : EditBuffer) (u : Option Nat) : Prop := ∀ s, u = some s → b.Has s

/-- `prev` and `next` undo each other all round the ring. -/
structure Paired (b : EditBuffer) : Prop where
  place_succ : ∀ u, b.Place u → b.Place (b.succ u)
  place_pred : ∀ u, b.Place u → b.Place (b.pred u)
  pred_succ : ∀ u, b.Place u → b.pred (b.succ u) = u
  succ_pred : ∀ u, b.Place u → b.succ (b.pred u) = u

section
variable {b : EditBuffer} {first last : Nat} {right u : Option Nat}

theorem prevOf_relinkNeighbours_first (last : Nat) (hf : b.Has first) (hrf : right ≠ some first) :
    (b.relinkNeighbours first last (b.pred right) right).prevOf first = b.pred (some first) := by
  rw [prevOf_relinkNeighbours hf, if_neg hrf, pred, ite_self]

theorem nextOf_relinkNeighbours_last (first : Nat) (right : Option Nat) (hl : b.Has last) :
    (b.relinkNeighbours first last (b.pred right) right).nextOf last =
      if b.pred right = some last then some first else b.succ (some last) := by
  rw [nextOf_relinkNeighbours hl, ite_self, succ]

theorem Paired.pred_ne (hp : b.Paired) (hf : b.Has first) (hr : b.Place right)
    (hrf : right ≠ some first) : b.pred right ≠ b.pred (some first) := by
  intro he
  have := congrArg b.succ he
  rw [hp.succ_pred _ hr, hp.succ_pred _ fun s hs => Option.some.inj hs ▸ hf] at this
  exact hrf this

theorem succ_relink (hp : b.Paired) (hf : b.Has first) (hl : b.Has last) (hr : b.Place right)
    (hrf : right ≠ some first) (hz : b.pred right ≠ some last) (hu : b.Place u)
    (hgap : u = none → b.pred (some first) = none → b.succ (some last) ≠ none) :
    (b.relink first last right).succ u =
      if u = some last then right else if u = b.pred right then some first
      else if u = b.pred (some first) then b.succ (some last) else b.succ u := by
  have hmove : right = none → last ≠ b.last := by
    rintro rfl rfl
    exact hz rfl
  have hne := hp.pred_ne hf hr hrf
  have hw := nextOf_relinkNeighbours_last first right hl
  have ho := prevOf_relinkNeighbours_first last hf hrf
  rw [if_neg hz] at hw
  cases u with
  | none =>
    have := (relink_links first hmove hf).2.2.1
    rw [ho, hw] at this
    simp only [succ] at this hgap ⊢
    rw [this]
    cases hw' : b.nextOf last with
    | none => grind
    | some n => grind
  | some t =>
    have ht := hu t rfl
    have := (relink_links first hmove ht).1
    rw [ho, hw, nextOf_relinkNeighbours ht] at this
    simp only [succ] at this ⊢
    rw [this]
    grind [pred]

theorem pred_relink (hf : b.Has first) (hl : b.Has last)
    (hrf : right ≠ some first) (hz : b.pred right ≠ some last) (hu : b.Place u)
    (hgap : u = none → b.succ (some last) = none → b.pred (some first) ≠ none) :
    (b.relink first last right).pred u =
      if u = some first then b.pred right else if u = right then some last
      else if u = b.succ (some last) then b.pred (some first) else b.pred u := by
  have hmove : right = none → last ≠ b.last := by
    rintro rfl rfl
    exact hz rfl
  have hw := nextOf_relinkNeighbours_last first right hl
  have ho := prevOf_relinkNeighbours_first last hf hrf
  rw [if_neg hz] at hw
  cases u with
  | none =>
    have := (relink_links first hmove hf).2.2.2
    rw [ho, hw] at this
    simp only [pred] at this hgap ⊢
    rw [this]
    cases ho' : b.prevOf first with
    | none => grind
    | some n => grind
  | some t =>
    have ht := hu t rfl
    have := (relink_links first hmove ht).2.1
    rw [prevOf_relinkNeighbours ht] at this
    simp only [pred] at this ⊢
    rw [this]
    grind [pred, succ]

end

end SfcTsx.EditBuffer
