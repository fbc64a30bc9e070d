import SfcTsx.Proofs.Markup.Edges

namespace SfcTsx.Markup

open Template (Closes delimitedText)

variable {t u f : Text}

def commentsAt (offset : Nat) (t : Text) : List Span := commentsFrom (t.length + 1) offset t

def commentText (body : Text) (closed : Bool) : Text :=
  ("<!--" : String).toList ++ delimitedText ("-->" : String) body closed

/-- The first comment of a text, between what stands in front of it and behind it. -/
structure FirstComment (t p body : Text) (closed : Bool) (f : Text) : Prop where
  text : t = p ++ (commentText body closed ++ f)
  opens : Text.cutAt? ("<!--" : String) t = some (p, commentText body closed ++ f)
  closes : Closes ("-->" : String) body closed f

section
variable {p body : Text} {closed : Bool}

theorem FirstComment.length_lt (h : FirstComment t p body closed f) : f.length < t.length := by
  have hpos : 0 < (commentText body closed).length := Nat.succ_pos _
  rw [h.text]
  simp only [List.length_append]
  omega

theorem FirstComment.commentsFrom_eq (h : FirstComment t p body closed f) (fuel offset : Nat) :
    let stop := offset + p.size + (commentText body closed).size
    commentsFrom (fuel + 1) offset t = ⟨offset + p.size, stop⟩ :: commentsFrom fuel stop f := by
  intro stop
  have hdrop : (commentText body closed ++ f).drop 4 =
      delimitedText ("-->" : String) body closed ++ f := rfl
  have hfour : Text.size ("<!--" : String).toList = 4 := rfl
  have hstop : stop = offset + p.size + 4 + (delimitedText ("-->" : String) body closed).size := by
    simp only [stop, commentText, Text.size_append, hfour, Nat.add_assoc]
  rw [commentsFrom, h.opens, hstop]
  simp only [hdrop, afterComment_eq h.closes]

end

theorem commentsFrom_none (h : Text.cutAt? ("<!--" : String) t = none) (fuel offset : Nat) :
    commentsFrom fuel offset t = [] := by
  cases fuel with
  | zero => rfl
  | succ fuel => rw [commentsFrom, h]

theorem comment_cases (t : Text) : Text.cutAt? ("<!--" : String) t = none ∨
    ∃ p body closed f, FirstComment t p body closed f := by
  cases hcut : Text.cutAt? ("<!--" : String) t with
  | none => exact .inl rfl
  | some cut =>
    obtain ⟨p, rest⟩ := cut
    obtain ⟨rfl, b, rfl⟩ := Text.cutAt?_eq_some hcut
    obtain ⟨body, closed, f, rfl, hclose⟩ := Template.exists_closes ("-->" : String) b
    exact .inr ⟨p, body, closed, f, rfl, hcut, hclose⟩

theorem commentsFrom_shift {fuel fuel' : Nat} (h : t.length < fuel) (h' : t.length < fuel')
    (offset k : Nat) :
    commentsFrom fuel (offset + k) t = (commentsFrom fuel' offset t).map (·.shift k) := by
  induction fuel generalizing fuel' t offset with
  | zero => omega
  | succ fuel ih =>
    cases fuel' with
    | zero => omega
    | succ fuel' =>
      obtain hnone | ⟨p, body, closed, f, hfirst⟩ := comment_cases t
      · rw [commentsFrom_none hnone, commentsFrom_none hnone]
        rfl
      · have hlt := hfirst.length_lt
        have hmore := fun offset => @ih f fuel' (by omega) (by omega) offset
        simp [hfirst.commentsFrom_eq, Span.shift, Nat.add_right_comm _ k, hmore]

theorem commentsFrom_fuel {fuel : Nat} (h : t.length < fuel) (offset : Nat) :
    commentsFrom fuel offset t = commentsAt offset t := by
  have hshift := commentsFrom_shift h (Nat.lt_succ_self _) offset 0
  have hid : ∀ c : Span, c.shift 0 = c := fun c => rfl
  simpa [hid, commentsAt] using hshift

theorem commentsAt_shift (offset k : Nat) (t : Text) :
    commentsAt (offset + k) t = (commentsAt offset t).map (·.shift k) :=
  commentsFrom_shift (Nat.lt_succ_self _) (Nat.lt_succ_self _) offset k

def commentMark (inside : Bool) : Text := if inside then ("-->" : String) else ("<!--" : String)

/-- Reading a text, from inside of a comment or from outside, behind as many characters as given, ends
outside of comments. -/
def commentsEnd : (inside : Bool) → (skip : Nat) → Text → Bool
  | inside, _, [] => !inside
  | inside, skip + 1, _ :: cs => commentsEnd inside skip cs
  | inside, 0, c :: cs =>
    if (commentMark inside).isPrefixOf (c :: cs) then
      commentsEnd (!inside) ((commentMark inside).length - 1) cs
    else commentsEnd inside 0 cs

theorem commentsEnd_skip (inside : Bool) (s t : Text) :
    commentsEnd inside s.length (s ++ t) = commentsEnd inside 0 t := by
  induction s with
  | nil => rfl
  | cons c s ih =>
    rw [List.cons_append, List.length_cons, commentsEnd]
    exact ih

theorem commentsEnd_of_none {inside : Bool} (h : Text.cutAt? (commentMark inside) t = none) :
    commentsEnd inside 0 t = !inside := by
  induction t with
  | nil => rfl
  | cons c t ih =>
    rw [Text.cutAt?] at h
    split at h
    next => cases h
    next hprefix =>
      rw [commentsEnd, if_neg hprefix]
      exact ih (Option.map_eq_none_iff.mp h)

theorem commentsEnd_of_some {inside : Bool} {p rest : Text}
    (h : Text.cutAt? (commentMark inside) t = some (p, commentMark inside ++ rest)) :
    commentsEnd inside 0 t = commentsEnd (!inside) 0 rest := by
  induction t generalizing p with
  | nil => cases inside <;> cases h
  | cons c t ih =>
    rw [Text.cutAt?] at h
    rw [commentsEnd]
    split at h
    next hprefix =>
      obtain ⟨-, htext⟩ : [] = p ∧ c :: t = commentMark inside ++ rest := by simpa using h
      obtain ⟨d, mark, hmark⟩ : ∃ d mark, commentMark inside = d :: mark := by
        cases inside <;> exact ⟨_, _, rfl⟩
      rw [hmark, List.cons_append] at htext
      rw [if_pos hprefix, hmark, (List.cons.inj htext).2]
      exact commentsEnd_skip _ mark rest
    next hprefix =>
      obtain ⟨⟨x, y⟩, hcut, heq⟩ := Option.map_eq_some_iff.mp h
      obtain ⟨-, rfl⟩ : c :: x = p ∧ y = commentMark inside ++ rest := by simpa using heq
      rw [if_neg hprefix]
      exact ih hcut

section
variable {p body : Text} {closed : Bool} (h : FirstComment t p body closed f)
include h

theorem FirstComment.commentsAt_eq (offset : Nat) :
    let stop := offset + p.size + (commentText body closed).size
    commentsAt offset t = ⟨offset + p.size, stop⟩ :: commentsAt stop f := by
  rw [commentsAt, h.commentsFrom_eq, commentsFrom_fuel h.length_lt]

theorem FirstComment.closed_eq (hend : commentsEnd false 0 t = true) :
    closed = true ∧ commentsEnd false 0 f = true := by
  have hinside : commentsEnd true 0 (delimitedText ("-->" : String) body closed ++ f) = true :=
    (@commentsEnd_of_some _ false _ _ h.opens).symm.trans hend
  have hclose := h.closes
  cases closed with
  | true =>
    have hcut : Text.cutAt? (commentMark true) (delimitedText ("-->" : String) body true ++ f) =
        some (body, commentMark true ++ f) := by
      rw [delimitedText, if_pos rfl, List.append_assoc]
      exact hclose
    rw [commentsEnd_of_some hcut] at hinside
    exact ⟨rfl, hinside⟩
  | false =>
    obtain ⟨rfl, hnone⟩ := hclose
    rw [delimitedText, if_neg (by simp), List.append_nil, List.append_nil,
      @commentsEnd_of_none _ true hnone] at hinside
    cases hinside

end

/-- The sweep for comments reads a text in whose first part all comments end part by part. -/
theorem commentsAt_append (h : commentsEnd false 0 t = true)
    (hparted : Text.Parted ("<!--" : String) t f) (offset : Nat) :
    commentsAt offset (t ++ f) = commentsAt offset t ++ commentsAt (offset + t.size) f := by
  induction hlen : t.length using Nat.strong_induction_on generalizing offset t with
  | _ n ih =>
    have hcut := Text.cutAt?_append (by decide) hparted
    obtain hnone | ⟨p, body, closed, g, hfirst⟩ := comment_cases t
    · -- The first comment is the first of the second part.
      rw [hnone] at hcut
      have hempty : commentsAt offset t = [] := commentsFrom_none hnone _ _
      rw [hempty, List.nil_append]
      obtain hnone' | ⟨p, body, closed, g, hfirst⟩ := comment_cases f
      · rw [hnone'] at hcut
        rw [commentsAt, commentsFrom_none hcut, commentsAt, commentsFrom_none hnone']
      · rw [hfirst.opens] at hcut
        have hall : FirstComment (t ++ f) (t ++ p) body closed g :=
          ⟨by rw [hfirst.text, List.append_assoc], hcut, hfirst.closes⟩
        rw [hall.commentsAt_eq, hfirst.commentsAt_eq, Text.size_append, ← Nat.add_assoc offset]
    · obtain ⟨rfl, hend⟩ := hfirst.closed_eq h
      have hlt := hfirst.length_lt
      have htext : t = (p ++ commentText body true) ++ g := by rw [hfirst.text, List.append_assoc]
      rw [hfirst.opens] at hcut
      simp only [List.append_assoc] at hcut
      have hall : FirstComment (t ++ f) p body true (g ++ f) :=
        ⟨by rw [hfirst.text, List.append_assoc, List.append_assoc], hcut, hfirst.closes.congr _⟩
      have hparted' : Text.Parted ("<!--" : String) g f := (htext ▸ hparted).of_append
      rw [hall.commentsAt_eq, hfirst.commentsAt_eq, List.cons_append,
        ih _ (hlen ▸ hlt) hend hparted' _ rfl, htext]
      simp [Nat.add_assoc]

def elementsAt (offset : Nat) (t : Text) : List (RawBlock × Span) :=
  emptyElements (t.length + 1) offset t

def shiftElement (k : Nat) (e : RawBlock × Span) : RawBlock × Span := (e.1.shift k, e.2.shift k)

theorem ElementShape.kept_shift (s : ElementShape) (offset k : Nat) :
    s.kept (offset + k) = (s.kept offset).map (shiftElement k) := by
  unfold kept
  split
  · simp [shiftElement, block, RawBlock.shift, Span.shift, Nat.add_right_comm _ k]
  · rfl

theorem emptyElements_shift {fuel fuel' : Nat} (h : t.length < fuel) (h' : t.length < fuel')
    (offset k : Nat) :
    emptyElements fuel (offset + k) t = (emptyElements fuel' offset t).map (shiftElement k) := by
  induction fuel generalizing fuel' t offset with
  | zero => omega
  | succ fuel ih =>
    cases fuel' with
    | zero => omega
    | succ fuel' =>
      cases t with
      | nil => rfl
      | cons c cs =>
        cases he : emptyElement? (c :: cs) with
        | none =>
          simp only [List.length_cons, Nat.add_lt_add_iff_right] at h h'
          rw [emptyElements_char he, emptyElements_char he, Nat.add_right_comm, ih h h']
        | some e =>
          obtain ⟨s, f, htext, hs, -⟩ := ElementShape.exists_of_emptyElement? he
          have hpos := List.length_pos_iff.mpr s.text_ne_nil
          rw [htext, List.length_append] at h h'
          have hlen : f.length < fuel ∧ f.length < fuel' := by omega
          rw [htext, ElementShape.emptyElements_element hs, ElementShape.emptyElements_element hs,
            List.map_append, ElementShape.kept_shift, Nat.add_right_comm, ih hlen.1 hlen.2]

theorem emptyElements_fuel {fuel : Nat} (h : t.length < fuel) (offset : Nat) :
    emptyElements fuel offset t = elementsAt offset t := by
  have hshift := emptyElements_shift h (Nat.lt_succ_self _) offset 0
  have hid : shiftElement 0 = id := rfl
  simpa [hid, elementsAt] using hshift

theorem elementsAt_shift (offset k : Nat) (t : Text) :
    elementsAt (offset + k) t = (elementsAt offset t).map (shiftElement k) :=
  emptyElements_shift (Nat.lt_succ_self _) (Nat.lt_succ_self _) offset k

theorem elementsAt_element {s : ElementShape} (h : s.Fits) (offset : Nat) (f : Text) :
    elementsAt offset (s.text ++ f) = s.kept offset ++ elementsAt (offset + s.text.size) f := by
  have hpos := List.length_pos_iff.mpr s.text_ne_nil
  rw [elementsAt, ElementShape.emptyElements_element h, emptyElements_fuel]
  rw [List.length_append]
  omega

theorem elementsAt_char {c : Char} {cs : Text} (h : emptyElement? (c :: cs) = none) (offset : Nat) :
    elementsAt offset (c :: cs) = elementsAt (offset + c.utf8Size) cs := by
  rw [elementsAt, emptyElements_char h, emptyElements_fuel]
  simp

/-- No element without content that begins in the text ends in what follows. -/
def elementsEnd (follow : Text) : Text → Bool
  | [] => true
  | c :: cs =>
    (match emptyElement? (c :: (cs ++ follow)) with
      | some e => decide (follow.size ≤ e.after)
      | none => true) && elementsEnd follow cs

theorem elementsEnd_of_append {follow : Text} (h : elementsEnd follow (t ++ u) = true) :
    elementsEnd follow u = true := by
  induction t with
  | nil => exact h
  | cons c t ih =>
    rw [List.cons_append, elementsEnd, Bool.and_eq_true] at h
    exact ih h.2

/-- The sweep for elements without content reads a text in whose first part all of them end part by
part. -/
theorem elementsAt_append (h : elementsEnd f t = true) (offset : Nat) :
    elementsAt offset (t ++ f) = elementsAt offset t ++ elementsAt (offset + t.size) f := by
  induction hlen : t.length using Nat.strong_induction_on generalizing offset t with
  | _ n ih =>
    cases t with
    | nil => rfl
    | cons c cs =>
      have hrest : elementsEnd f cs = true := elementsEnd_of_append (t := [c]) h
      cases he : emptyElement? (c :: (cs ++ f)) with
      | none =>
        have hnone : emptyElement? (c :: cs) = none := by
          cases he' : emptyElement? (c :: cs) with
          | none => rfl
          | some e =>
            obtain ⟨s, g, htext, hs, -⟩ := ElementShape.exists_of_emptyElement? he'
            rw [← List.cons_append, htext, List.append_assoc, ElementShape.emptyElement?_eq hs] at he
            cases he
        rw [List.cons_append, elementsAt_char he, elementsAt_char hnone,
          ih cs.length (by simp at hlen; omega) hrest _ rfl, Text.size_cons, Nat.add_assoc]
      | some e =>
        obtain ⟨s, g, htext, hs, rfl⟩ := ElementShape.exists_of_emptyElement? he
        rw [elementsEnd, he, Bool.and_eq_true, decide_eq_true_eq] at h
        have hle : s.text.size ≤ Text.size (c :: cs) := by
          have hsize := congrArg Text.size htext
          rw [← List.cons_append, Text.size_append, Text.size_append] at hsize
          have hafter : f.size ≤ Text.size g := h.1
          omega
        obtain ⟨d, hd, rfl⟩ := exists_append_of_size_le (a := c :: cs) htext hle
        have hpos := List.length_pos_iff.mpr s.text_ne_nil
        have hlt : d.length < n := by
          rw [← hlen, hd, List.length_append]
          omega
        have hend : elementsEnd f (s.text ++ d) = true := by
          rw [← hd, elementsEnd, he, Bool.and_eq_true, decide_eq_true_eq]
          exact h
        rw [hd, List.append_assoc, elementsAt_element hs, elementsAt_element hs,
          ih _ hlt (elementsEnd_of_append hend) _ rfl, List.append_assoc, Text.size_append,
          Nat.add_assoc]

end SfcTsx.Markup
