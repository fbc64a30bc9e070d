import SfcTsx.Markup.Extract
import SfcTsx.Proofs.Markup.Tree

namespace SfcTsx

variable {name : Text} {close : Span} {fuel fuel' : Nat}

@[simp] theorem Span.shift_start (s : Span) (k : Nat) : (s.shift k).start = s.start + k := rfl

@[simp] theorem Span.shift_stop (s : Span) (k : Nat) : (s.shift k).stop = s.stop + k := rfl

namespace Markup

open Text (At)
open Template (Closes delimitedText exists_closes)

variable {source t u f g p rest : Text} {offset : Nat} {tag : TagShape}

section closing
variable {name blank : Text} {close : Span}

theorem closeTagAt?_eq (hb : ∀ c ∈ blank, Text.isSpace c = true) (offset : Nat) (f : Text) :
    closeTagAt? name offset (closingText name blank ++ f) =
      some ⟨offset, offset + (closingText name blank).size⟩ := by
  have hafter : Text.after? (("</" : String) ++ name) (closingText name blank ++ f) =
      some (blank ++ '>' :: f) := by
    have happ : closingText name blank ++ f = ("</" : String).toList ++ name ++ (blank ++ '>' :: f) := by
      simp [closingText]
    rw [happ]
    exact Text.after?_append _ _
  have hrun : (blank ++ '>' :: f).takeWhile Text.isSpace = blank :=
    Text.takeWhile_run hb (by simp [Text.isSpace])
  simp only [closeTagAt?, hafter, bind, Option.bind, hrun, List.drop_left, size_closingText]
  simp only [Nat.add_assoc]

theorem exists_of_closeTagAt? (h : closeTagAt? name offset t = some close) :
    ∃ blank f, t = closingText name blank ++ f ∧ (∀ c ∈ blank, Text.isSpace c = true) ∧
      close = ⟨offset, offset + (closingText name blank).size⟩ := by
  obtain ⟨rest, hrest, hend⟩ := Option.bind_eq_some_iff.mp h
  obtain ⟨blank, u, rfl, hb, hu⟩ := Text.exists_run Text.isSpace rest
  simp only [Text.takeWhile_run hb hu, List.drop_left] at hend
  have htext := Text.after?_eq_some hrest
  split at hend
  next f =>
    have ht : t = closingText name blank ++ f := by
      rw [htext]
      simp [closingText]
    rw [ht, closeTagAt?_eq hb] at h
    exact ⟨blank, f, ht, hb, (Option.some.inj h).symm⟩
  next => cases hend

end closing

/-- A closing tag found from an offset on. -/
structure ClosesFrom (source : Text) (offset : Nat) (close : Span) : Prop where
  le : offset ≤ close.start
  lt : close.start < close.stop
  start : source.isBoundary close.start = true
  stop : source.isBoundary close.stop = true

theorem ClosesFrom.of_closeTagAt? (h : At source offset t)
    (hclose : closeTagAt? name offset t = some close) : ClosesFrom source offset close := by
  obtain ⟨blank, rest, rfl, -, rfl⟩ := exists_of_closeTagAt? hclose
  have hpos : 0 < (closingText name blank).size := Text.size_pos (by simp [closingText])
  exact ⟨le_rfl, by simp only; omega, h.isBoundary, h.skip.isBoundary⟩

theorem ClosesFrom.mono {o : Nat} (h : ClosesFrom source o close) (hle : offset ≤ o) :
    ClosesFrom source offset close :=
  { h with le := hle.trans h.le }

theorem rawClose?_closes (h : At source offset t)
    (hclose : rawClose? name offset t = some close) : ClosesFrom source offset close := by
  induction t generalizing offset with
  | nil => cases hclose
  | cons c cs ih =>
    rw [rawClose?] at hclose
    split at hclose
    next span hspan =>
      obtain rfl := Option.some.inj hclose
      exact .of_closeTagAt? h hspan
    next =>
      have hnext : At source (offset + c.utf8Size) cs := h.skip (s := [c])
      exact (ih hnext hclose).mono (by omega)

theorem boundary_at (h : At source offset t) :
    offset ≤ boundary offset t ∧ source.isBoundary (boundary offset t) = true := by
  induction t generalizing offset with
  | nil => exact ⟨le_rfl, h.isBoundary⟩
  | cons c cs ih =>
    have hnext : At source (offset + c.utf8Size) cs := h.skip (s := [c])
    rw [boundary]
    split
    next hc =>
      obtain rfl : c = '\n' := by simpa using (Bool.and_eq_true_iff.mp hc).1
      exact ⟨by omega, hnext.isBoundary⟩
    next =>
      obtain ⟨hle, hb⟩ := ih hnext
      exact ⟨by omega, hb⟩

def Value.shift (v : Value) (k : Nat) : Value := { v with span := v.span.shift k }

def RawAttr.shift (r : RawAttr) (k : Nat) : RawAttr :=
  { r with
    nameSpan := r.nameSpan.shift k, value := r.value.map (·.shift k), span := r.span.shift k }

def RawBlock.shift (b : RawBlock) (k : Nat) : RawBlock := ⟨b.tag, b.content.shift k, b.close.shift k⟩

def StartTag.shift (tag : StartTag) (k : Nat) : StartTag :=
  { tag with
    nameSpan := tag.nameSpan.shift k, attrs := tag.attrs.map (·.shift k), span := tag.span.shift k }

theorem TagItem.rawAttr_shift (n : Text) (start : Nat) (a : Option Assigned) (k : Nat) :
    rawAttr n (start + k) a = (rawAttr n start a).shift k := by
  cases a with
  | none => simp [rawAttr, RawAttr.shift, Span.shift, Nat.add_right_comm]
  | some a =>
    simp [rawAttr, RawAttr.shift, Value.shift, Written.value, Assigned.start, Span.shift,
      Nat.add_right_comm]

theorem TagItem.rawAttrs_shift (offset : Nat) (items : List TagItem) (k : Nat) :
    rawAttrs (offset + k) items = (rawAttrs offset items).map (·.shift k) := by
  induction items generalizing offset with
  | nil => rfl
  | cons i items ih =>
    have hrest := ih (offset + i.text.size)
    rw [rawAttrs, rawAttrs, List.map_append, ← hrest, Nat.add_right_comm]
    cases i with
    | slash b => rfl
    | attr b n a => simp [rawAttr?, ← rawAttr_shift, Nat.add_right_comm]

theorem closeTagAt?_shift (name : Text) (offset k : Nat) (t : Text) :
    closeTagAt? name (offset + k) t = (closeTagAt? name offset t).map (·.shift k) := by
  unfold closeTagAt?
  cases Text.after? (("</" : String) ++ name) t with
  | none => rfl
  | some rest =>
    simp only [bind, Option.bind]
    split
    · simp only [Option.map_some, Span.shift, Option.some.injEq, Span.mk.injEq, true_and]
      omega
    · rfl

theorem rawClose?_shift (name : Text) (offset k : Nat) (t : Text) :
    rawClose? name (offset + k) t = (rawClose? name offset t).map (·.shift k) := by
  induction t generalizing offset with
  | nil => rfl
  | cons c cs ih =>
    rw [rawClose?, rawClose?, closeTagAt?_shift]
    cases closeTagAt? name offset (c :: cs) with
    | some close => rfl
    | none =>
      simp only [Option.map_none]
      rw [Nat.add_right_comm, ih]

theorem boundary_shift (offset k : Nat) (t : Text) : boundary (offset + k) t = boundary offset t + k := by
  induction t generalizing offset with
  | nil => rfl
  | cons c cs ih =>
    rw [boundary, boundary]
    split
    · omega
    · rw [Nat.add_right_comm, ih]

theorem TagShape.startTag_shift (s : TagShape) (offset k : Nat) :
    s.startTag (offset + k) = (s.startTag offset).shift k := by
  have hattrs := TagItem.rawAttrs_shift (offset + 1 + s.name.size) s.items k
  simp only [startTag, StartTag.shift, Span.shift, StartTag.mk.injEq, Span.mk.injEq, ← hattrs]
  refine ⟨trivial, ⟨?_, ?_⟩, ?_, ⟨trivial, ?_⟩, trivial⟩
  · omega
  · omega
  · congr 1
    omega
  · omega

theorem scan_shift (offset k : Nat) (r : Text) : (StartTag.scan (offset + k) ('<' :: r)).toOption =
    (StartTag.scan offset ('<' :: r)).toOption.map (·.shift k) := by
  cases hscan : StartTag.scan offset ('<' :: r) with
  | ok tag =>
    obtain ⟨s, f, htext, hs, rfl⟩ := TagShape.exists_of_scan hscan
    rw [htext, TagShape.scan_eq hs, TagShape.startTag_shift]
    rfl
  | error e =>
    cases hscan' : StartTag.scan (offset + k) ('<' :: r) with
    | error e' => rfl
    | ok tag =>
      obtain ⟨s, f, htext, hs, rfl⟩ := TagShape.exists_of_scan hscan'
      rw [htext, TagShape.scan_eq hs] at hscan
      cases hscan

theorem afterComment_eq {body : Text} {closed : Bool} (h : Closes ("-->" : String) body closed f)
    (offset : Nat) : afterComment offset (delimitedText ("-->" : String) body closed ++ f) =
      (offset + (delimitedText ("-->" : String) body closed).size, f) := by
  cases closed with
  | true =>
    have hcut : Text.cutAt? ("-->" : String) (body ++ (("-->" : String).toList ++ f)) =
        some (body, ("-->" : String).toList ++ f) := h
    have hsize : Text.size ("-->" : String).toList = 3 := rfl
    simp only [afterComment, delimitedText, if_true, List.append_assoc, hcut, Text.size_append, hsize,
      Nat.add_assoc]
    rfl
  | false =>
    obtain ⟨rfl, hcut⟩ := h
    simp only [afterComment, delimitedText, Bool.false_eq_true, if_false, List.append_nil, hcut]

theorem scan_eq_error (h : ∀ s g, '<' :: f = TagShape.text s ++ g → ¬ s.Fits g) (offset : Nat) :
    ∃ e, StartTag.scan offset ('<' :: f) = .error e := by
  cases hscan : StartTag.scan offset ('<' :: f) with
  | error e => exact ⟨e, rfl⟩
  | ok tag =>
    obtain ⟨s, g, htext, hs, -⟩ := TagShape.exists_of_scan hscan
    exact absurd hs (h s g htext)

theorem skipTo_append (offset : Nat) (s f : Text) : skipTo offset (offset + s.size) (s ++ f) = f := by
  simp [skipTo, Text.drop?_size_append]

/-- What the search for the closing tag of an element takes from a text that begins with a bracket: a
comment, a closing tag or a start tag of the element's name, or a bracket that begins none of them. -/
inductive Mark where
  | comment (body : Text) (closed : Bool)
  | closing (blank : Text)
  | opening (tag : TagShape)
  | angle

namespace Mark

variable {name : Text} {m : Mark}

def text (name : Text) : Mark → Text
  | comment body closed => ("<!--" : String).toList ++ delimitedText ("-->" : String) body closed
  | closing blank => closingText name blank
  | opening tag => tag.text
  | angle => ['<']

theorem text_comment (name body : Text) (closed : Bool) : (comment body closed).text name =
    ("<!--" : String).toList ++ delimitedText ("-->" : String) body closed := rfl

theorem text_closing (name blank : Text) : (closing blank).text name = closingText name blank := rfl

theorem text_opening (name : Text) (tag : TagShape) : (opening tag).text name = tag.text := rfl

theorem text_angle (name : Text) : angle.text name = ['<'] := rfl

def Fits (name : Text) : Mark → Text → Prop
  | comment body closed, f => Closes ("-->" : String) body closed f
  | closing blank, _ => ∀ c ∈ blank, Text.isSpace c = true
  | opening tag, f => tag.Fits f ∧ StartTag.hasName name (tag.name ++ (tag.tail ++ f)) = true
  | angle, f => Text.after? ("<!--" : String) ('<' :: f) = none ∧
      closeTagAt? name 0 ('<' :: f) = none ∧
      (StartTag.hasName name f = true → ∀ s g, '<' :: f = TagShape.text s ++ g → ¬ s.Fits g)

def next (name : Text) (m : Mark) (fuel depth offset : Nat) (f : Text) : Option Span :=
  let stop := offset + (m.text name).size
  match m, depth with
  | closing _, 0 => some ⟨offset, stop⟩
  | closing _, depth + 1 => nestedCloseFrom name fuel depth stop f
  | opening tag, depth =>
    nestedCloseFrom name fuel (if tag.selfClosing then depth else depth + 1) stop f
  | comment .., depth | angle, depth => nestedCloseFrom name fuel depth stop f

theorem after?_shape (h : tag.Fits f) {d : Char} (hd : d.isAlpha = false) (word : Text) :
    Text.after? ('<' :: d :: word) (tag.text ++ f) = none := by
  obtain ⟨c, n, hn, hc⟩ := TagShape.head?_name h
  have hne : d ≠ c := by
    rintro rfl
    simp [hd] at hc
  have htext : tag.text ++ f = '<' :: c :: (n ++ (tag.tail ++ f)) := by simp [TagShape.text, hn]
  rw [htext]
  simp [Text.after?, hne]

theorem nestedCloseFrom_eq (h : m.Fits name f) (fuel depth offset : Nat) :
    nestedCloseFrom name (fuel + 1) depth offset (m.text name ++ f) =
      m.next name fuel depth offset f := by
  have hnone (r : Text) : ('<' :: r).takeWhile (· != '<') = [] := by simp
  cases m with
  | comment body closed =>
    have hafter : Text.after? ("<!--" : String) ((comment body closed).text name ++ f) =
        some (delimitedText ("-->" : String) body closed ++ f) := rfl
    have hfour : Text.size ("<!--" : String).toList = 4 := rfl
    obtain ⟨r, hr⟩ : ∃ r, (comment body closed).text name ++ f = '<' :: r := ⟨_, rfl⟩
    rw [hr] at hafter
    rw [hr, nestedCloseFrom, hnone]
    simp only [List.length_nil, List.drop_zero, Text.size_nil, Nat.add_zero, hafter,
      afterComment_eq h, next, text_comment, Text.size_append, hfour, Nat.add_assoc]
  | closing blank =>
    have hclose := @closeTagAt?_eq name _ h offset f
    have hskip := skipTo_append offset (closingText name blank) f
    have hafter : Text.after? ("<!--" : String) (closingText name blank ++ f) = none := rfl
    obtain ⟨r, hr⟩ : ∃ r, closingText name blank ++ f = '<' :: r := ⟨_, rfl⟩
    rw [text_closing, hr, nestedCloseFrom, hnone]
    rw [hr] at hclose hskip hafter
    simp only [List.length_nil, List.drop_zero, Text.size_nil, Nat.add_zero, hafter, hclose]
    cases depth with
    | zero => rfl
    | succ depth => simp only [hskip, next, text_closing]
  | opening tag =>
    obtain ⟨htag, hname⟩ := h
    have hslash : Text.after? (("</" : String) ++ name) (tag.text ++ f) = none :=
      after?_shape htag rfl name
    have hclose : closeTagAt? name offset (tag.text ++ f) = none := by
      rw [closeTagAt?, hslash]
      rfl
    have hafter : Text.after? ("<!--" : String) (tag.text ++ f) = none := after?_shape htag rfl _
    have hskip := skipTo_append offset tag.text f
    have hscan := TagShape.scan_eq htag offset
    have hr : tag.text ++ f = '<' :: (tag.name ++ (tag.tail ++ f)) := by simp [TagShape.text]
    rw [text_opening, hr, nestedCloseFrom, hnone]
    rw [hr] at hclose hafter hskip hscan
    simp only [List.length_nil, List.drop_zero, Text.size_nil, Nat.add_zero, hafter, hclose, hname,
      if_true, hscan, Except.toOption, TagShape.startTag, hskip, next, text_opening]
  | angle =>
    obtain ⟨hafter, hclose, hscan⟩ := h
    have hclose' : closeTagAt? name offset ('<' :: f) = none := by
      have hshift := closeTagAt?_shift name 0 offset ('<' :: f)
      rwa [hclose, Nat.zero_add] at hshift
    have htag : (if StartTag.hasName name f = true then (StartTag.scan offset ('<' :: f)).toOption
        else none) = none := by
      split
      next hname =>
        obtain ⟨e, he⟩ := scan_eq_error (hscan hname) offset
        rw [he]
        rfl
      next => rfl
    rw [text_angle, List.singleton_append, nestedCloseFrom, hnone]
    simp only [List.length_nil, List.drop_zero, Text.size_nil, Nat.add_zero, hafter, hclose', htag]
    rfl

theorem exists_mark (name rest : Text) :
    ∃ (m : Mark) (f : Text), '<' :: rest = m.text name ++ f ∧ m.Fits name f := by
  cases hcomment : Text.after? ("<!--" : String) ('<' :: rest) with
  | some u =>
    obtain ⟨body, closed, f, rfl, hcloses⟩ := exists_closes ("-->" : String) u
    refine ⟨comment body closed, f, ?_, hcloses⟩
    rw [Text.after?_eq_some hcomment, text_comment, List.append_assoc]
  | none =>
    cases hclose : closeTagAt? name 0 ('<' :: rest) with
    | some close =>
      obtain ⟨blank, f, htext, hb, -⟩ := exists_of_closeTagAt? hclose
      exact ⟨closing blank, f, htext, hb⟩
    | none =>
      by_cases htag : StartTag.hasName name rest = true ∧
          ∃ s g, '<' :: rest = TagShape.text s ++ g ∧ s.Fits g
      · obtain ⟨hname, s, g, htext, hs⟩ := htag
        have hrest : rest = s.name ++ (s.tail ++ g) := by simpa [TagShape.text] using htext
        exact ⟨opening s, g, htext, hs, hrest ▸ hname⟩
      · refine ⟨angle, rest, rfl, hcomment, hclose, fun hname s g htext hs => ?_⟩
        exact htag ⟨hname, s, g, htext, hs⟩

theorem text_ne_nil (name : Text) (m : Mark) : m.text name ≠ [] := by
  cases m <;>
    simp [text_comment, text_closing, text_opening, text_angle, closingText, TagShape.text]

theorem next_shift {k : Nat} (h : ∀ depth offset, nestedCloseFrom name fuel depth (offset + k) f =
      (nestedCloseFrom name fuel' depth offset f).map (·.shift k)) (depth offset : Nat) :
    m.next name fuel depth (offset + k) f = (m.next name fuel' depth offset f).map (·.shift k) := by
  cases m with
  | comment body closed => simp only [next, Nat.add_right_comm _ k, h]
  | closing blank =>
    cases depth with
    | zero => simp [next, Nat.add_right_comm _ k, Span.shift]
    | succ depth => simp only [next, Nat.add_right_comm _ k, h]
  | opening tag => simp only [next, Nat.add_right_comm _ k, h]
  | angle => simp only [next, Nat.add_right_comm _ k, h]

end Mark

theorem not_mem_of_run (hp : ∀ c ∈ p, (c != '<') = true) : '<' ∉ p := by
  intro hc
  simpa using hp '<' hc

theorem takeWhile_not_mem (ht : '<' ∉ t) : t.takeWhile (· != '<') = t := by
  refine List.takeWhile_eq_self_iff.mpr fun c hc => ?_
  have hne : c ≠ '<' := fun he => ht (he ▸ hc)
  simpa using hne

theorem angle_cases (t : Text) : '<' ∉ t ∨ ∃ p rest, t = p ++ '<' :: rest ∧ '<' ∉ p := by
  obtain ⟨p, u, rfl, hp, hu⟩ := Text.exists_run (· != '<') t
  cases u with
  | nil => exact .inl (by simpa using not_mem_of_run hp)
  | cons c rest =>
    obtain rfl : c = '<' := by simpa using hu c rfl
    exact .inr ⟨p, rest, rfl, not_mem_of_run hp⟩

theorem nestedCloseFrom_skip (hp : '<' ∉ p) (fuel depth offset : Nat) (rest : Text) :
    nestedCloseFrom name (fuel + 1) depth offset (p ++ '<' :: rest) =
      nestedCloseFrom name (fuel + 1) depth (offset + p.size) ('<' :: rest) := by
  have hrun := Lexed.takeWhile_ne (f := rest) hp
  have hnone : ('<' :: rest).takeWhile (· != '<') = [] := by simp
  rw [nestedCloseFrom, nestedCloseFrom, hrun, hnone]
  simp only [List.drop_left, List.length_nil, List.drop_zero, Text.size_nil, Nat.add_zero]

theorem nestedCloseFrom_none (ht : '<' ∉ t) (fuel depth offset : Nat) :
    nestedCloseFrom name fuel depth offset t = none := by
  cases fuel with
  | zero => rfl
  | succ fuel =>
    rw [nestedCloseFrom, takeWhile_not_mem ht, List.drop_length]

/-- The search gives the same at any offset, with any fuel that suffices. -/
theorem nestedCloseFrom_shift (name : Text) (h : t.length < fuel)
    (h' : t.length < fuel') (depth offset k : Nat) :
    nestedCloseFrom name fuel depth (offset + k) t =
      (nestedCloseFrom name fuel' depth offset t).map (·.shift k) := by
  induction fuel generalizing fuel' t depth offset with
  | zero => omega
  | succ fuel ih =>
    cases fuel' with
    | zero => omega
    | succ fuel' =>
      obtain ht | ⟨p, rest, rfl, hp⟩ := angle_cases t
      · rw [nestedCloseFrom_none ht, nestedCloseFrom_none ht]
        rfl
      · obtain ⟨m, f, hm, hfits⟩ := Mark.exists_mark name rest
        have hpos := List.length_pos_iff.mpr (m.text_ne_nil name)
        have hlen : f.length < fuel ∧ f.length < fuel' := by
          rw [hm] at h h'
          simp only [List.length_append] at h h'
          omega
        rw [nestedCloseFrom_skip hp, nestedCloseFrom_skip hp, hm, Mark.nestedCloseFrom_eq hfits,
          Mark.nestedCloseFrom_eq hfits, Nat.add_right_comm]
        exact Mark.next_shift (fun depth offset => ih hlen.1 hlen.2 depth offset) _ _

theorem nestedCloseFrom_closes {depth : Nat}
    (h : At source offset t) (hclose : nestedCloseFrom name fuel depth offset t = some close) :
    ClosesFrom source offset close := by
  induction fuel generalizing offset depth t with
  | zero => cases hclose
  | succ fuel ih =>
    obtain ht | ⟨p, rest, rfl, hp⟩ := angle_cases t
    · rw [nestedCloseFrom_none ht] at hclose
      cases hclose
    · obtain ⟨m, f, hm, hfits⟩ := Mark.exists_mark name rest
      rw [nestedCloseFrom_skip hp, hm, Mark.nestedCloseFrom_eq hfits] at hclose
      rw [hm] at h
      have hpos := Text.size_pos (m.text_ne_nil name)
      have hmore {depth : Nat} (hrest : nestedCloseFrom name fuel depth
          (offset + p.size + (m.text name).size) f = some close) : ClosesFrom source offset close :=
        (ih h.skip.skip hrest).mono (by omega)
      cases m with
      | closing blank =>
        cases depth with
        | zero =>
          obtain rfl := Option.some.inj hclose
          exact ⟨Nat.le_add_right _ _, Nat.lt_add_of_pos_right hpos, h.skip.isBoundary,
            h.skip.skip.isBoundary⟩
        | succ depth => exact hmore hclose
      | _ => exact hmore hclose

/-- The closing tag of a block of a name whose content begins at an offset. -/
def closeFrom (name : Text) (offset : Nat) (t : Text) : Option Span :=
  if (BlockKind.ofTag (String.ofList name)).isRaw then rawClose? name offset t
  else nestedClose? name offset t

theorem closeFrom_shift (name : Text) (offset k : Nat) (t : Text) :
    closeFrom name (offset + k) t = (closeFrom name offset t).map (·.shift k) := by
  unfold closeFrom
  split
  · exact rawClose?_shift name offset k t
  · exact nestedCloseFrom_shift name (Nat.lt_succ_self _) (Nat.lt_succ_self _) 0 offset k

theorem closeFrom_closes (h : At source offset t)
    (hclose : closeFrom name offset t = some close) : ClosesFrom source offset close := by
  unfold closeFrom at hclose
  split at hclose
  · exact rawClose?_closes h hclose
  · exact nestedCloseFrom_closes h hclose

/-- The start tags of other elements are not read, so a closing tag in the quotes of an attribute ends a
template. -/
theorem quoted_closing_tag_ends_template :
    (Document.parse false "<template><div a=\"</template>\"></div></template>".toList).1.blocks.map
      (·.content) = [⟨10, 18⟩] := by
  decide +kernel

/-- The content and the closing tag of a block of a name, in front of what follows. A block that is not
closed goes up to the next one. -/
def Extent (name inner close : Text) (closed : Bool) (f : Text) : Prop :=
  if closed then closeFrom name 0 (inner ++ (close ++ f)) = some ⟨inner.size, inner.size + close.size⟩
  else close = [] ∧ closeFrom name 0 (inner ++ f) = none ∧ boundary 0 (inner ++ f) = inner.size

theorem exists_extent (name t : Text) :
    ∃ inner close closed f, t = inner ++ (close ++ f) ∧ Extent name inner close closed f := by
  have ht := At.zero t
  cases hclose : closeFrom name 0 t with
  | some close =>
    have hcloses := closeFrom_closes ht hclose
    obtain ⟨u, hu⟩ := At.of_isBoundary hcloses.start
    obtain ⟨f, hf⟩ := At.of_isBoundary hcloses.stop
    obtain ⟨inner, hinner, hstart⟩ := ht.between hu hcloses.le
    obtain ⟨c, rfl, hstop⟩ := hu.between hf hcloses.lt.le
    refine ⟨inner, c, true, f, hinner, ?_⟩
    have hspan : close = ⟨inner.size, inner.size + c.size⟩ := by
      rw [Nat.zero_add] at hstart
      rw [← hstart, ← hstop]
    rw [Extent, if_pos rfl, ← hinner, hclose, hspan]
  | none =>
    obtain ⟨hle, hb⟩ := boundary_at ht
    obtain ⟨f, hf⟩ := At.of_isBoundary hb
    obtain ⟨inner, hinner, hstop⟩ := ht.between hf hle
    refine ⟨inner, [], false, f, hinner, ?_⟩
    rw [Extent, if_neg (by simp), ← hinner]
    exact ⟨rfl, hclose, by omega⟩

theorem blockExtent_eq {inner close : Text} {closed : Bool}
    (h : Extent tag.name inner close closed f) (offset : Nat) : let start := offset + tag.text.size
    blockExtent (tag.startTag offset) (inner ++ (close ++ f)) =
      (⟨start, start + inner.size⟩, ⟨start + inner.size, start + inner.size + close.size⟩,
        if closed then []
        else [⟨.unclosedBlock (String.ofList tag.name), .empty (start + inner.size)⟩]) := by
  intro start
  have hstart : (tag.startTag offset).span.stop = 0 + start := (Nat.zero_add _).symm
  have hname : (tag.startTag offset).name = String.ofList tag.name := rfl
  have hclose := closeFrom_shift tag.name 0 start (inner ++ (close ++ f))
  have hbound := boundary_shift 0 start (inner ++ (close ++ f))
  unfold closeFrom at hclose
  simp only [blockExtent, hstart, hname, String.toList_ofList, hclose, hbound]
  cases closed with
  | true =>
    have hsome : closeFrom tag.name 0 (inner ++ (close ++ f)) =
        some ⟨inner.size, inner.size + close.size⟩ := h
    unfold closeFrom at hsome
    simp only [hsome, Option.map_some, Span.shift, if_true, Prod.mk.injEq, Span.mk.injEq, and_true]
    omega
  | false =>
    obtain ⟨rfl, hnone, hb⟩ := h
    unfold closeFrom at hnone
    simp only [List.nil_append, hnone, Option.map_none, hb, Span.empty, Text.size_nil, Nat.add_zero,
      Bool.false_eq_true, if_false, Nat.zero_add, Nat.add_comm inner.size]

/-- What the scan for blocks takes from a text that begins with a bracket. -/
inductive Piece where
  | comment (body : Text) (closed : Bool)
  | single (tag : TagShape)
  | block (tag : TagShape) (inner close : Text) (closed : Bool)
  | angle

namespace Piece

variable {s : Piece}

def text : Piece → Text
  | comment body closed => ("<!--" : String).toList ++ delimitedText ("-->" : String) body closed
  | single tag => tag.text
  | block tag inner close _ => tag.text ++ (inner ++ close)
  | angle => ['<']

theorem text_comment (body : Text) (closed : Bool) : (comment body closed).text =
    ("<!--" : String).toList ++ delimitedText ("-->" : String) body closed := rfl

theorem text_single (tag : TagShape) : (single tag).text = tag.text := rfl

theorem text_block (tag : TagShape) (inner close : Text) (closed : Bool) :
    (block tag inner close closed).text = tag.text ++ (inner ++ close) := rfl

theorem text_angle : angle.text = ['<'] := rfl

def Fits : Piece → Text → Prop
  | comment body closed, f => Closes ("-->" : String) body closed f
  | single tag, f => tag.Fits f ∧ tag.selfClosing = true
  | block tag inner close closed, f => tag.Fits (inner ++ (close ++ f)) ∧ tag.selfClosing = false ∧
      Extent tag.name inner close closed f
  | angle, f => Text.after? ("<!--" : String) ('<' :: f) = none ∧
      ∀ s g, '<' :: f = TagShape.text s ++ g → ¬ s.Fits g

def blocks (offset : Nat) : Piece → List RawBlock
  | block tag inner close _ =>
    let start := offset + tag.text.size
    if Text.isBlank inner && !(tag.startTag 0).attrs.any (·.name == "src") then []
    else [⟨String.ofList tag.name, ⟨start, start + inner.size⟩,
      ⟨start + inner.size, start + inner.size + close.size⟩⟩]
  | _ => []

def problems (offset : Nat) : Piece → List ParseError
  | block tag inner _ false =>
    [⟨.unclosedBlock (String.ofList tag.name), .empty (offset + tag.text.size + inner.size)⟩]
  | _ => []

theorem any_attrs_startTag (tag : TagShape) (offset : Nat) (name : String) :
    (tag.startTag offset).attrs.any (·.name == name) = (tag.startTag 0).attrs.any (·.name == name) := by
  have hshift := tag.startTag_shift 0 offset
  rw [Nat.zero_add] at hshift
  simp [hshift, StartTag.shift, Function.comp_def, RawAttr.shift]

theorem exists_text (s : Piece) : ∃ t, s.text = '<' :: t := by
  cases s <;> exact ⟨_, rfl⟩

theorem text_ne_nil (s : Piece) : s.text ≠ [] := by
  obtain ⟨t, ht⟩ := s.exists_text
  simp [ht]

theorem exists_piece (rest : Text) : ∃ (s : Piece) (f : Text), '<' :: rest = s.text ++ f ∧ s.Fits f := by
  cases hcomment : Text.after? ("<!--" : String) ('<' :: rest) with
  | some u =>
    obtain ⟨body, closed, f, rfl, hcloses⟩ := exists_closes ("-->" : String) u
    refine ⟨comment body closed, f, ?_, hcloses⟩
    rw [Text.after?_eq_some hcomment, text_comment, List.append_assoc]
  | none =>
    by_cases htag : ∃ s g, '<' :: rest = TagShape.text s ++ g ∧ s.Fits g
    · obtain ⟨tag, g, htext, hfits⟩ := htag
      cases hsc : tag.selfClosing with
      | true => exact ⟨single tag, g, htext, hfits, hsc⟩
      | false =>
        obtain ⟨inner, close, closed, f, rfl, hext⟩ := exists_extent tag.name g
        refine ⟨block tag inner close closed, f, ?_, hfits, hsc, hext⟩
        rw [htext, text_block, List.append_assoc, List.append_assoc]
    · exact ⟨angle, rest, rfl, hcomment, fun s g htext hfits => htag ⟨s, g, htext, hfits⟩⟩

theorem scanBlocks_tag (h : tag.Fits g) (fuel offset : Nat) :
    scanBlocks (fuel + 1) offset (tag.text ++ g) =
      let start := offset + tag.text.size
      if tag.selfClosing then scanBlocks fuel start g
      else
        let (content, close, problems) := blockExtent (tag.startTag offset) g
        let inner := (Text.take? content.len g).getD []
        let hasSource := (tag.startTag offset).attrs.any (·.name == "src")
        let own := if Text.isBlank inner && !hasSource then []
          else [⟨String.ofList tag.name, content, close⟩]
        let (blocks, errors) := scanBlocks fuel close.stop (skipTo start close.stop g)
        (own ++ blocks, problems ++ errors) := by
  have hnone (r : Text) : ('<' :: r).takeWhile (· != '<') = [] := by simp
  obtain ⟨c, n, hn, hc⟩ := TagShape.head?_name h
  have hafter : Text.after? ("<!--" : String) (tag.text ++ g) = none := Mark.after?_shape h rfl _
  have hscan := TagShape.scan_eq h offset
  have hskip := skipTo_append offset tag.text g
  have hstop : (tag.startTag offset).span.stop = offset + tag.text.size := rfl
  have hsc : (tag.startTag offset).selfClosing = tag.selfClosing := rfl
  have hr : tag.text ++ g = '<' :: c :: (n ++ (tag.tail ++ g)) := by simp [TagShape.text, hn]
  rw [hr] at hafter hscan hskip
  rw [hr, scanBlocks, hnone]
  simp only [List.length_nil, List.drop_zero, Text.size_nil, Nat.add_zero, hafter, List.head?_cons,
    Option.map_some, Option.getD_some, hc, Bool.not_true, Bool.false_eq_true, if_false, hscan, hsc,
    hstop, hskip]
  rfl

theorem scanBlocks_eq (h : s.Fits f) (fuel offset : Nat) :
    let result := scanBlocks (fuel + 1) offset (s.text ++ f)
    let more := scanBlocks fuel (offset + s.text.size) f
    result.1 = s.blocks offset ++ more.1 ∧ ∀ e ∈ s.problems offset ++ more.2, e ∈ result.2 := by
  intro result more
  have hnone (r : Text) : ('<' :: r).takeWhile (· != '<') = [] := by simp
  cases s with
  | comment body closed =>
    have hafter : Text.after? ("<!--" : String) ((comment body closed).text ++ f) =
        some (delimitedText ("-->" : String) body closed ++ f) := rfl
    have hfour : Text.size ("<!--" : String).toList = 4 := rfl
    have hresult : result = more := by
      simp only [result, more]
      obtain ⟨r, hr⟩ : ∃ r, (comment body closed).text ++ f = '<' :: r := ⟨_, rfl⟩
      rw [hr] at hafter
      rw [hr, scanBlocks, hnone]
      simp only [List.length_nil, List.drop_zero, Text.size_nil, Nat.add_zero, hafter,
        afterComment_eq h, text_comment, Text.size_append, hfour, Nat.add_assoc]
    simp [hresult, blocks, problems]
  | single tag =>
    obtain ⟨htag, hsc⟩ := h
    have hresult : result = more := by
      simp only [result, more, text_single, scanBlocks_tag htag, hsc, if_true]
    simp [hresult, blocks, problems]
  | block tag inner close closed =>
    obtain ⟨htag, hsc, hext⟩ := h
    have htext : (block tag inner close closed).text ++ f = tag.text ++ (inner ++ (close ++ f)) := by
      simp [text_block]
    have hstop : offset + (block tag inner close closed).text.size =
        offset + tag.text.size + inner.size + close.size := by
      simp only [text_block, Text.size_append]
      omega
    have hskip : skipTo (offset + tag.text.size) (offset + tag.text.size + inner.size + close.size)
        (inner ++ (close ++ f)) = f := by
      have happ := skipTo_append (offset + tag.text.size) (inner ++ close) f
      rwa [List.append_assoc, Text.size_append, ← Nat.add_assoc] at happ
    simp only [result, more, htext, hstop, scanBlocks_tag htag, hsc, Bool.false_eq_true, if_false,
      blockExtent_eq hext, Span.len, Nat.add_sub_cancel_left, Text.take?_size_append, Option.getD_some,
      any_attrs_startTag, hskip, blocks]
    cases closed <;> simp [problems]
  | angle =>
    obtain ⟨hafter, hscan⟩ := h
    have hmore : more = scanBlocks fuel (offset + 1) f := rfl
    have hresult : result.1 = more.1 ∧ ∀ e ∈ more.2, e ∈ result.2 := by
      simp only [result, text_angle, List.singleton_append, scanBlocks, hnone, List.length_nil,
        List.drop_zero, Text.size_nil, Nat.add_zero, hafter]
      split
      next => exact ⟨rfl, fun e he => he⟩
      next =>
        obtain ⟨e, he⟩ := scan_eq_error hscan offset
        simp only [he]
        exact ⟨rfl, fun e' he' => by simp [← hmore, he']⟩
    simpa [blocks, problems] using hresult

theorem blocks_shift (s : Piece) (offset k : Nat) :
    s.blocks (offset + k) = (s.blocks offset).map (·.shift k) := by
  cases s with
  | block tag inner close closed =>
    simp only [blocks]
    split
    · rfl
    · simp only [RawBlock.shift, List.map_cons, List.map_nil, Span.shift, List.cons.injEq,
        RawBlock.mk.injEq, Span.mk.injEq, true_and, and_true]
      omega
  | _ => rfl

theorem exists_of_mem_blocks {b : RawBlock} (hb : b ∈ s.blocks offset) :
    ∃ tag inner close closed, s = .block tag inner close closed ∧ b =
      ⟨String.ofList tag.name, ⟨offset + tag.text.size, offset + tag.text.size + inner.size⟩,
        ⟨offset + tag.text.size + inner.size, offset + s.text.size⟩⟩ := by
  cases s with
  | block tag inner close closed =>
    simp only [blocks] at hb
    split at hb
    · cases hb
    · obtain rfl := List.mem_singleton.mp hb
      exact ⟨tag, inner, close, closed, rfl, by simp [text_block, Nat.add_assoc]⟩
  | _ => cases hb

end Piece

theorem scanBlocks_none (ht : '<' ∉ t) (fuel offset : Nat) : scanBlocks fuel offset t = ([], []) := by
  cases fuel with
  | zero => rfl
  | succ fuel =>
    rw [scanBlocks, takeWhile_not_mem ht, List.drop_length]

theorem scanBlocks_skip (hp : '<' ∉ p) (fuel offset : Nat) (rest : Text) :
    scanBlocks (fuel + 1) offset (p ++ '<' :: rest) =
      scanBlocks (fuel + 1) (offset + p.size) ('<' :: rest) := by
  have hrun := Lexed.takeWhile_ne (f := rest) hp
  have hnone : ('<' :: rest).takeWhile (· != '<') = [] := by simp
  rw [scanBlocks, scanBlocks, hrun, hnone]
  simp only [List.drop_left, List.length_nil, List.drop_zero, Text.size_nil, Nat.add_zero]
  rfl

theorem scanBlocks_piece {s : Piece} (hp : '<' ∉ p) (h : s.Fits f) (fuel offset : Nat) :
    let result := scanBlocks (fuel + 1) offset (p ++ (s.text ++ f))
    let more := scanBlocks fuel (offset + p.size + s.text.size) f
    result.1 = s.blocks (offset + p.size) ++ more.1 ∧
      ∀ e ∈ s.problems (offset + p.size) ++ more.2, e ∈ result.2 := by
  obtain ⟨t, ht⟩ := s.exists_text
  have hstep := Piece.scanBlocks_eq h fuel (offset + p.size)
  rw [ht, List.cons_append] at hstep
  simp only [ht, List.cons_append, scanBlocks_skip hp]
  exact hstep

theorem scanBlocks_shift (h : t.length < fuel) (h' : t.length < fuel') (offset k : Nat) :
    (scanBlocks fuel (offset + k) t).1 = (scanBlocks fuel' offset t).1.map (·.shift k) := by
  induction fuel generalizing fuel' t offset with
  | zero => omega
  | succ fuel ih =>
    cases fuel' with
    | zero => omega
    | succ fuel' =>
      obtain ht | ⟨p, rest, rfl, hp⟩ := angle_cases t
      · rw [scanBlocks_none ht, scanBlocks_none ht]
        rfl
      · obtain ⟨s, f, hs, hfits⟩ := Piece.exists_piece rest
        have hpos := List.length_pos_iff.mpr s.text_ne_nil
        have hlen : f.length < fuel ∧ f.length < fuel' := by
          rw [hs] at h h'
          simp only [List.length_append] at h h'
          omega
        have hmore := ih hlen.1 hlen.2 (offset + p.size + s.text.size)
        rw [hs, (scanBlocks_piece hp hfits fuel _).1, (scanBlocks_piece hp hfits fuel' _).1,
          List.map_append, ← hmore, Nat.add_right_comm offset k, Piece.blocks_shift,
          Nat.add_right_comm _ k]

def blocksAt (offset : Nat) (t : Text) : List RawBlock := (scanBlocks (t.length + 1) offset t).1

theorem scanBlocks_fuel (h : t.length < fuel) (offset : Nat) :
    (scanBlocks fuel offset t).1 = blocksAt offset t := by
  have hshift := scanBlocks_shift h (Nat.lt_succ_self _) offset 0
  have hid : ∀ b : RawBlock, b.shift 0 = b := fun b => rfl
  simpa [hid, blocksAt] using hshift

theorem blocksAt_shift (offset k : Nat) (t : Text) :
    blocksAt (offset + k) t = (blocksAt offset t).map (·.shift k) :=
  scanBlocks_shift (Nat.lt_succ_self _) (Nat.lt_succ_self _) offset k

theorem blocksAt_skip (hp : '<' ∉ p) (offset : Nat) (rest : Text) :
    blocksAt offset (p ++ '<' :: rest) = blocksAt (offset + p.size) ('<' :: rest) := by
  rw [blocksAt, scanBlocks_skip hp]
  refine scanBlocks_fuel ?_ _
  simp only [List.length_append, List.length_cons]
  omega

theorem blocksAt_piece {s : Piece} (hp : '<' ∉ p) (h : s.Fits f) (offset : Nat) :
    blocksAt offset (p ++ (s.text ++ f)) =
      s.blocks (offset + p.size) ++ blocksAt (offset + p.size + s.text.size) f := by
  have hpos := List.length_pos_iff.mpr s.text_ne_nil
  rw [blocksAt, (scanBlocks_piece hp h _ offset).1, scanBlocks_fuel]
  simp only [List.length_append]
  omega

/-- Every block the scan finds has a start tag, in front of its content and behind the blocks before. -/
theorem exists_tag_of_mem {b : RawBlock} (h : b ∈ blocksAt offset t) :
    ∃ (a : Text) (tag : TagShape) (g : Text), t = a ++ (tag.text ++ g) ∧ tag.Fits g ∧
      b.tag = String.ofList tag.name ∧ b.content.start = offset + a.size + tag.text.size ∧
      ∀ r ∈ blocksAt offset t, r.content.start < b.content.start → r.close.stop ≤ offset + a.size := by
  induction hlen : t.length using Nat.strong_induction_on generalizing offset t b with
  | _ n ih =>
    obtain ht | ⟨p, rest, rfl, hp⟩ := angle_cases t
    · rw [blocksAt, scanBlocks_none ht] at h
      cases h
    · obtain ⟨s, f, hs, hfits⟩ := Piece.exists_piece rest
      rw [hs, blocksAt_piece hp hfits] at h
      rw [hs, blocksAt_piece hp hfits]
      have hpos := List.length_pos_iff.mpr s.text_ne_nil
      have hlt : f.length < n := by
        rw [hs] at hlen
        simp only [List.length_append] at hlen
        omega
      rcases List.mem_append.mp h with hown | hmore
      · obtain ⟨tag, inner, close, closed, rfl, rfl⟩ := Piece.exists_of_mem_blocks hown
        refine ⟨p, tag, inner ++ (close ++ f), by simp [Piece.text], hfits.1, rfl, rfl, ?_⟩
        intro r hr hbefore
        rcases List.mem_append.mp hr with hr | hr
        · obtain ⟨_, _, _, _, heq, rfl⟩ := Piece.exists_of_mem_blocks hr
          cases heq
          exact absurd hbefore (Nat.lt_irrefl _)
        · obtain ⟨a, _, _, -, -, -, hstart, -⟩ := ih _ hlt hr rfl
          simp only [Piece.text_block, Text.size_append] at hstart hbefore
          omega
      · obtain ⟨a, tag, g, rfl, htag, hname, hstart, hbefore⟩ := ih _ hlt hmore rfl
        refine ⟨p ++ (s.text ++ a), tag, g, by simp, htag, hname, ?_, fun r hr hlt => ?_⟩
        · simp only [Text.size_append]
          omega
        · simp only [Text.size_append]
          rcases List.mem_append.mp hr with hr | hr
          · obtain ⟨_, _, _, _, -, rfl⟩ := Piece.exists_of_mem_blocks hr
            simp only
            omega
          · have := hbefore r hr hlt
            omega

end Markup

end SfcTsx
