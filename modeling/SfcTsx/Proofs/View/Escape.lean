import SfcTsx.Proofs.View.Frame

namespace SfcTsx

namespace Markup.Template

/-- No interpolation, comment or tag begins anywhere in the text. -/
structure PlainText (s : Text) : Prop where
  interpolation : ¬ "\x7b\x7b".toList <:+: s
  comment : ¬ "<!--".toList <:+: s
  closing : ¬ "</".toList <:+: s
  opening : ∀ c : Char, c.isAlpha = true → ¬ ['<', c] <:+: s

namespace PlainText

variable {s : Text}

theorem tail {c : Char} (h : PlainText (c :: s)) : PlainText s :=
  ⟨fun hi => h.interpolation (List.infix_cons hi), fun hi => h.comment (List.infix_cons hi),
    fun hi => h.closing (List.infix_cons hi), fun d hd hi => h.opening d hd (List.infix_cons hi)⟩

variable (h : PlainText s)
include h

theorem startsTag : startsTag s = false := by
  unfold Template.startsTag
  split
  next c rest => exact Bool.eq_false_iff.mpr fun hc => h.opening c hc ⟨[], rest, rfl⟩
  next => rfl

theorem endsText : endsText s = false := by
  have hmark : ∀ mark : Text, ¬ mark <:+: s → mark.isPrefixOf s = false := fun mark hmark =>
    Bool.eq_false_iff.mpr fun hp => hmark (List.isPrefixOf_iff_prefix.mp hp).isInfix
  simp only [Template.endsText, List.any_cons, List.any_nil, hmark _ h.interpolation, hmark _ h.comment,
    hmark _ h.closing, h.startsTag, Bool.or_false]

theorem textLength : textLength s = s.length := by
  have hmore : ∀ t, PlainText t → textLength.more t = t.length := by
    intro t ht
    induction t with
    | nil => rfl
    | cons c t ih => simp [textLength.more, ht.endsText, ih ht.tail, Nat.add_comm]
  cases s with
  | nil => rfl
  | cons c s => rw [Template.textLength, hmore s h.tail, List.length_cons, Nat.add_comm]

theorem beginsText : Shape.BeginsText s := by
  have hmark : ∀ mark : Text, ¬ mark <:+: s → Text.after? mark s = none := fun mark hmark =>
    Option.eq_none_iff_forall_ne_some.mpr fun u hu => hmark ⟨[], u, (Text.after?_eq_some hu).symm⟩
  refine ⟨hmark _ h.comment, ?_, .inr ⟨h.startsTag, hmark _ h.interpolation⟩⟩
  rintro name blank f rfl -
  exact h.closing ⟨[], _, rfl⟩

theorem parse_nodes (hne : s ≠ []) :
    (parse s ⟨0, s.size⟩).1.nodes = [.text ⟨0, s.size⟩ s] := by
  have hslice : s.slice 0 s.size = Shape.allText [.plain s] := by
    have hs := Text.slice_head s []
    rw [List.append_nil] at hs
    simpa [Shape.allText, Shape.text] using hs
  have hfits : Shape.AllFit [] [.plain s] [] := by
    refine ⟨⟨hne, ?_, ?_⟩, .inl rfl⟩ <;> simp only [Shape.allText, List.append_nil]
    · exact h.beginsText
    · exact h.textLength
  rw [Template.parse_nodes (Nat.zero_le _) (Nat.le_refl _) hslice hfits]
  simp [Shape.allNodes, Shape.nodes]

end PlainText
end Markup.Template

namespace View

open Markup Template

def escapeChar (c : Char) : Text :=
  if c ∈ ['{', '}', '<', '>'] then ['{', '"', c, '"', '}'] else [c]

theorem escapeText_sound {source s : Text} {n : Nat} (hat : source.At n s) :
    Operation.Sound source True n (n + s.size) (escapeText n s) := by
  rw [← List.append_nil s] at hat
  obtain ⟨hescape, hops⟩ := escapeText_successive hat
  exact hescape.sound hops

theorem escapeChar_eq (c : Char) :
    escapeChar c = if isTextMark c then ['{', '"'] ++ [c] ++ ['"', '}'] else [c] := by
  simp [escapeChar, isTextMark, or_assoc]

theorem apply_overwrite_first (n : Nat) {c : Char} (hc : c.utf8Size = 1) (s u : Text) :
    Operation.apply (Text.cells n (c :: s)) (.overwrite n (n + 1) u) =
      ⟨n, c, [], u, []⟩ :: Text.cells (n + 1) s := by
  have hwithin : Operation.Within n (n + 1) (.overwrite n (n + 1) u) := by simp [Operation.Within]
  have hedit := hwithin.apply_append (P := []) (M := [⟨n, c, [], [c], []⟩]) (S := Text.cells (n + 1) s)
    (by simp) fun x hx => (Text.mem_cells hx).1
  have hin : (⟨n, c, [], [c], []⟩ : Cell).isIn n (n + 1) = true := by
    simp [Cell.isIn_iff, Cell.stop, hc]
  rw [Text.cells, hc]
  exact hedit.trans (by simp [Operation.apply, Operation.paint, hin, Cell.hide])

theorem flatMap_render_escapeText (n : Nat) (s : Text) :
    (Operation.applyAll (s.cells n) (escapeText n s)).flatMap Cell.render = s.flatMap escapeChar := by
  induction s generalizing n with
  | nil => rfl
  | cons c s ih =>
    -- the first edit is that of the first character, and the others leave it alone
    have hfirst : Operation.applyAll (Text.cells n (c :: s)) (escapeText n (c :: s)) =
        Operation.applyAll ([⟨n, c, [], escapeChar c, []⟩] ++ (Text.cells (n + c.utf8Size) s ++ []))
          (escapeText (n + c.utf8Size) s) := by
      rw [escapeChar_eq, escapeText, List.append_nil]
      split
      next hmark =>
        have hone := isTextMark_size hmark
        rw [hone]
        exact congrArg (Operation.applyAll · (escapeText (n + 1) s)) (apply_overwrite_first n hone s _)
      next => rfl
    obtain ⟨source, hat⟩ := Text.At.exists_source (n + c.utf8Size) s
    rw [hfirst, Operation.applyAll_append (escapeText_sound hat).within (by simp [Cell.stop]) (by simp),
      List.append_nil, List.flatMap_append, ih]
    simp [Cell.render]

/-- A template that is nothing but text is shown with its marks written as strings. -/
theorem rendering?_text (s marker : Text) (h : PlainText s) :
    rendering? s marker = some (s.flatMap escapeChar) := by
  by_cases hne : s = []
  · subst hne
    rfl
  have hedits : templateEdits ⟨s, marker⟩ (parse s ⟨0, s.size⟩).1 = escapeText 0 s := by
    have hbuild : buildAll false none [.text ⟨0, s.size⟩ s] = ([.text ⟨0, s.size⟩ s], {}) := by
      cases hblank : Text.isBlank s <;> simp [buildAll, role, hblank, build, Chain.close] <;> rfl
    simp only [templateEdits, ofTemplate, h.parse_nodes hne, hbuild]
    simp [renderAll, render, renderText, wrapFragment]
  have hsound := escapeText_sound (Text.At.zero s)
  have hsize : s.isBoundary (0 + s.size) = true := by
    rw [Nat.zero_add]
    exact (Text.At.size s).isBoundary
  obtain ⟨b, hb⟩ := exists_perform_removes hsize (removals_nil s) hsound fun hnil => absurd hnil hne
  have hrender := EditBuffer.render_perform hne (Sound.fits hsize hsound)
    (hsound.compatible.imp fun h => h.1) hb
  rw [flatMap_render_escapeText] at hrender
  obtain ⟨out, hout⟩ := exists_renderTemplate (hedits ▸ hb)
  rw [rendering?, hout, ← hrender]

theorem rendering?_text_marks :
    PlainText "\x7d<é>\x7b".toList ∧ rendering? "\x7d<é>\x7b".toList [] =
      some "\x7b\"\x7d\"\x7d\x7b\"<\"\x7dé\x7b\">\"\x7d\x7b\"\x7b\"\x7d".toList := by
  have hplain : PlainText "\x7d<é>\x7b".toList := by
    refine ⟨by decide, by decide, by decide, fun c hc hi => ?_⟩
    obtain rfl : c = 'é' := by simpa [List.infix_cons_iff] using hi
    exact absurd hc (by decide)
  exact ⟨hplain, rendering?_text _ [] hplain⟩

end View
end SfcTsx
