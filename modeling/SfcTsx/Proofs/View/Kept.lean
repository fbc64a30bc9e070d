import SfcTsx.Proofs.View.Frame

namespace SfcTsx

/-- The characters at the offsets that pass a test, of a text that begins at an offset. -/
def Text.pick (test : Nat → Bool) : Nat → Text → Text
  | _, [] => []
  | n, c :: cs =>
    if test n then c :: pick test (n + c.utf8Size) cs else pick test (n + c.utf8Size) cs

namespace Text

variable {test test' : Nat → Bool}

theorem pick_eq (n : Nat) (t : Text) :
    pick test n t = (cells n t).flatMap fun c => if test c.start then c.render else [] := by
  induction t generalizing n with
  | nil => rfl
  | cons c t ih =>
    rw [pick, cells, List.flatMap_cons, ← ih]
    split <;> rfl

theorem pick_append (n : Nat) (s t : Text) :
    pick test n (s ++ t) = pick test n s ++ pick test (n + size s) t := by
  simp [pick_eq, cells_append]

theorem pick_congr {n : Nat} {t : Text} (h : ∀ m, n ≤ m → m < n + size t → test m = test' m) :
    pick test n t = pick test' n t := by
  rw [pick_eq, pick_eq]
  refine List.flatMap_congr fun c hc => ?_
  have hbounds := mem_cells hc
  rw [h c.start hbounds.1 (Nat.lt_of_lt_of_le c.start_lt_stop hbounds.2)]

theorem pick_all {n : Nat} {t : Text} (h : ∀ m, n ≤ m → m < n + size t → test m = true) :
    pick test n t = t := by
  have hall : pick (fun _ => true) n t = t := (pick_eq n t).trans (flatMap_render_cells n t)
  exact (pick_congr h).trans hall

end Text

namespace Operation

def removes (n : Nat) : Operation → Bool
  | .remove start stop => start ≤ n && n < stop
  | _ => false

theorem flatMap_render_removes {source : Text} {os : List Operation} {cs : List Cell}
    (hos : View.Removals source os) (hs : Sited source cs) :
    (applyAll cs os).flatMap Cell.render =
      cs.flatMap fun c => if os.any (removes c.start) then [] else c.render := by
  induction os generalizing cs with
  | nil => simp [applyAll]
  | cons o os ih =>
    refine (ih (fun o ho => hos o (by simp [ho])) (hs.apply o)).trans ?_
    obtain ⟨s, e, rfl, -, -, he⟩ := hos o (by simp)
    change (cs.map (paint (.remove s e))).flatMap _ = _
    rw [List.flatMap_map]
    refine List.flatMap_congr fun c hc => ?_
    have hin : removes c.start (.remove s e) = c.isIn s e := by
      have hside := hs c hc e he
      have hpos := c.start_lt_stop
      rw [Bool.eq_iff_iff, Cell.isIn_iff]
      simp only [removes, Bool.and_eq_true, decide_eq_true_eq]
      omega
    rw [paint_start, List.any_cons, hin, paint]
    cases c.isIn s e
    · rfl
    · simp [Cell.hide, Cell.render]

end Operation

namespace View

open Operation (removes)

theorem Removals.render_eq {source : Text} {os : List Operation} (h : Removals source os) {b : EditBuffer}
    (hok : EditBuffer.perform os (.ofText source) = .ok () b) :
    b.render = Text.pick (fun n => !os.any (removes n)) 0 source := by
  by_cases hne : source = []
  · subst hne
    rw [h.eq_nil] at hok
    obtain rfl := (EStateM.Result.ok.inj hok).2
    rfl
  · have horder := h.bare.pairwise_append (p := True) .nil
    rw [List.append_nil] at horder
    rw [EditBuffer.render_perform hne h.fits (horder.imp fun h => h.1) hok,
      Operation.flatMap_render_removes h (Operation.sited_cells source), Text.pick_eq]
    refine List.flatMap_congr fun c _ => ?_
    cases os.any (removes c.start) <;> rfl

theorem any_gap (start stop n : Nat) :
    (if start < stop then [Operation.remove start stop] else []).any (removes n) = true ↔
      start ≤ n ∧ n < stop := by
  split
  next => simp [removes]
  next =>
    simp
    omega

theorem any_removeGaps {stop cursor n : Nat} {ss : List Span}
    (hsorted : ss.Pairwise fun k k' => k.start ≤ k'.start) (hss : ∀ k ∈ ss, k.start ≤ stop) :
    (removeGaps stop cursor ss).any (removes n) = true ↔
      (cursor ≤ n ∧ n < stop) ∧ ∀ k ∈ ss, k.contains n = false := by
  induction ss generalizing cursor with
  | nil =>
    rw [removeGaps, any_gap]
    simp
  | cons k ks ih =>
    obtain ⟨hk, hks⟩ := List.pairwise_cons.mp hsorted
    obtain ⟨hkstop, hksstop⟩ := List.forall_mem_cons.mp hss
    have hout (k : Span) : k.contains n = false ↔ n < k.start ∨ k.stop ≤ n := by
      simp only [Span.contains, Bool.and_eq_false_iff, decide_eq_false_iff_not]
      omega
    rw [removeGaps, List.any_append, Bool.or_eq_true, any_gap, ih hks hksstop, List.forall_mem_cons, hout]
    constructor
    · rintro (⟨hlo, hbefore⟩ | ⟨⟨hlo, hhi⟩, hrest⟩)
      · refine ⟨⟨hlo, by omega⟩, .inl hbefore, fun k' hk' => (hout k').mpr (.inl ?_)⟩
        exact Nat.lt_of_lt_of_le hbefore (hk k' hk')
      · exact ⟨⟨by omega, hhi⟩, .inr (by omega), hrest⟩
    · rintro ⟨⟨hlo, hhi⟩, hbefore | hbehind, hrest⟩
      · exact .inl ⟨hlo, hbefore⟩
      · exact .inr ⟨⟨by omega, hhi⟩, hrest⟩

def isKept (range : Span) (kept : List Span) (n : Nat) : Bool :=
  kept.any fun k => range.containsSpan k && k.contains n

theorem any_removeExcept {range : Span} {kept : List Span} (hkept : ∀ k ∈ kept, k.start ≤ k.stop)
    (n : Nat) : (removeExcept range kept).any (removes n) =
      (range.contains n && !isKept range kept n) := by
  rw [Bool.eq_iff_iff, removeExcept, any_removeGaps (pairwise_sortOn _ _)]
  · simp [mem_sortOn, Span.contains, isKept]
  · intro k hk
    obtain ⟨hmem, hin⟩ := List.mem_filter.mp (mem_sortOn.mp hk)
    have hle := hkept k hmem
    simp only [Span.containsSpan, Bool.and_eq_true, decide_eq_true_eq] at hin
    omega

/-- A range is removed but for the characters that a span inside of it covers. Spans lie on the
boundaries of the source, so a character is covered if its first byte is. -/
theorem render_removeExcept (source : Text) (range : Span) (kept : List Span)
    (hrange : range.Fits source) (hkept : ∀ k ∈ kept, k.Fits source) :
    ∃ b, EditBuffer.perform (removeExcept range kept) (.ofText source) = .ok () b ∧
      b.render = source.slice 0 range.start ++
        Text.pick (isKept range kept) range.start (range.text source) ++
        source.slice range.stop source.size := by
  have hremoves := removeExcept_removals hrange hkept
  obtain ⟨b, hb⟩ := exists_perform_removes hrange.start hremoves (Operation.Sound.nil (a := 0)) fun _ => rfl
  rw [List.append_nil] at hb
  obtain ⟨x, y, z, rfl, hx, hy, -⟩ := Operation.cells_cut hrange.start hrange.stop hrange.le
  have hmid : Text.At (x ++ (y ++ z)) range.start (y ++ z) := ⟨x, rfl, hx⟩
  have htail := Text.slice_tail (x ++ y) z
  rw [Text.size_append x y, hx, hy, List.append_assoc] at htail
  refine ⟨b, hb, ?_⟩
  rw [hremoves.render_eq hb, Text.pick_append, Text.pick_append, Nat.zero_add, hx, hy, htail, Span.text,
    ← hx, Text.slice_head, hx, ← hy, hmid.slice, List.append_assoc]
  have hshown (m : Nat) : (!(removeExcept range kept).any (removes m)) =
      (!range.contains m || isKept range kept m) := by
    rw [any_removeExcept fun k hk => (hkept k hk).le, Bool.not_and, Bool.not_not]
  simp only [hshown, Span.contains]
  congr 1
  · exact Text.pick_all fun m _ hm => by simp; omega
  congr 1
  · refine Text.pick_congr fun m hlo hm => ?_
    rw [hy] at hm
    simp [hlo, hm]
  · exact Text.pick_all fun m hlo _ => by simp; omega

/-- Spans in disorder, one in another, and one that begins before the range. -/
theorem render_removeExcept_disorder :
    let source : Text := ['a', 'é', 'b', 'c', 'd', 'e', 'f']
    let kept : List Span := [⟨5, 6⟩, ⟨1, 3⟩, ⟨4, 6⟩, ⟨0, 4⟩]
    (Span.Fits ⟨1, 7⟩ source ∧ ∀ k ∈ kept, k.Fits source) ∧
      ∃ b, EditBuffer.perform (removeExcept ⟨1, 7⟩ kept) (.ofText source) = .ok () b ∧
        b.render = ['a', 'é', 'c', 'd', 'f'] := by
  intro source kept
  have hrange : Span.Fits ⟨1, 7⟩ source := ⟨by decide, by decide, by decide⟩
  have hkept : ∀ k ∈ kept, k.Fits source := by
    simp only [kept, List.mem_cons, List.not_mem_nil, or_false]
    rintro k (rfl | rfl | rfl | rfl) <;> exact ⟨by decide, by decide, by decide⟩
  exact ⟨⟨hrange, hkept⟩, render_removeExcept source ⟨1, 7⟩ kept hrange hkept⟩

end View
end SfcTsx
