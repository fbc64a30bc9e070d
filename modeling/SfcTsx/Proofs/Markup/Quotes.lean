import SfcTsx.Proofs.Markup.StartTag
import SfcTsx.Proofs.Markup.EmptyElement

namespace SfcTsx.Markup

variable {t u f g : Text}

def ValidQuote : Option Char → Prop
  | none => True
  | some q => IsQuote q

theorem ValidQuote.after {quote : Option Char} (h : ValidQuote quote) (c : Char) :
    ValidQuote (quoteAfter quote c) := by
  cases quote with
  | none =>
    simp only [quoteAfter]
    split
    next hc => simpa [ValidQuote, IsQuote] using hc
    next => trivial
  | some q =>
    simp only [quoteAfter]
    split
    · trivial
    · exact h

theorem quoteAfter_injective {q q' : Option Char} (h : ValidQuote q) (h' : ValidQuote q') {c : Char}
    (heq : quoteAfter q c = quoteAfter q' c) : q = q' := by
  have hmixed {d : Char} (hd : IsQuote d) : quoteAfter none c ≠ quoteAfter (some d) c := by
    simp only [quoteAfter]
    by_cases hc : c = d
    · have hquote : (d == '"' || d == '\'') = true := by simpa [IsQuote] using hd
      simp [hc, hquote]
    · by_cases hquote : (c == '"' || c == '\'') = true
      · simp [hquote, hc]
      · simp [hquote, hc]
  cases q with
  | none =>
    cases q' with
    | none => rfl
    | some d => exact absurd heq (hmixed h')
  | some d =>
    cases q' with
    | none => exact absurd heq.symm (hmixed h)
    | some d' =>
      by_cases hd : c = d <;> by_cases hd' : c = d' <;> simp_all [quoteAfter]

def quoteState (quote : Option Char) (t : Text) : Option Char := t.foldl quoteAfter quote

theorem quoteState_append (quote : Option Char) (s t : Text) :
    quoteState quote (s ++ t) = quoteState (quoteState quote s) t := List.foldl_append

theorem ValidQuote.state {quote : Option Char} (h : ValidQuote quote) (t : Text) :
    ValidQuote (quoteState quote t) := by
  induction t generalizing quote with
  | nil => exact h
  | cons c t ih => exact ih (h.after c)

theorem quoteState_injective {q q' : Option Char} (h : ValidQuote q) (h' : ValidQuote q')
    (heq : quoteState q t = quoteState q' t) : q = q' := by
  induction t generalizing q q' with
  | nil => exact heq
  | cons c t ih => exact quoteAfter_injective h h' (ih (h.after c) (h'.after c) heq)

/-- Quotes are closed again, and brackets stand between quotes only. -/
structure Quoted (t : Text) : Prop where
  closed : quoteState none t = none
  angle : ∀ a r, t = a ++ '<' :: r → quoteState none a ≠ none

namespace Quoted

theorem append (h : Quoted t) (h' : Quoted u) : Quoted (t ++ u) := by
  refine ⟨by rw [quoteState_append, h.closed, h'.closed], ?_⟩
  intro a r heq
  obtain ⟨b, rfl, hb⟩ | ⟨b, rfl, hb⟩ := List.append_eq_append_iff.mp heq
  · rw [quoteState_append, h.closed]
    exact h'.angle b r hb
  · cases b with
    | nil => exact absurd rfl (h'.angle [] r hb.symm)
    | cons c b =>
      obtain ⟨rfl, -⟩ := List.cons.inj hb
      exact h.angle a b rfl

theorem quoteState_plain (ht : ∀ c ∈ t, c ≠ '"' ∧ c ≠ '\'') : quoteState none t = none := by
  induction t with
  | nil => rfl
  | cons c t ih =>
    obtain ⟨h₁, h₂⟩ := ht c (by simp)
    have hc : quoteAfter none c = none := by simp [quoteAfter, h₁, h₂]
    have hrest := ih fun d hd => ht d (by simp [hd])
    simpa [quoteState, hc] using hrest

theorem of_plain (ht : ∀ c ∈ t, c ≠ '"' ∧ c ≠ '\'' ∧ c ≠ '<') : Quoted t := by
  refine ⟨quoteState_plain fun c hc => ⟨(ht c hc).1, (ht c hc).2.1⟩, ?_⟩
  intro a r heq
  exact absurd rfl (ht '<' (by simp [heq])).2.2

theorem quoteState_inside {q : Char} (ht : q ∉ t) : quoteState (some q) t = some q := by
  induction t with
  | nil => rfl
  | cons c t ih =>
    have hne : c ≠ q := fun he => ht (by simp [he])
    have hc : quoteAfter (some q) c = some q := by simp [quoteAfter, hne]
    have hrest := ih fun hq => ht (by simp [hq])
    simpa [quoteState, hc] using hrest

theorem of_quotes {q : Char} (hq : IsQuote q) (ht : q ∉ t) : Quoted (q :: (t ++ [q])) := by
  have hopen : quoteAfter none q = some q := by
    rcases hq with rfl | rfl <;> rfl
  have hinside := quoteState_inside ht
  have hangle : q ≠ '<' := by rcases hq with rfl | rfl <;> decide
  refine ⟨?_, ?_⟩
  · have hcons : quoteState none (q :: (t ++ [q])) = quoteState (some q) (t ++ [q]) := by
      simp [quoteState, hopen]
    rw [hcons, quoteState_append, hinside]
    simp [quoteState, quoteAfter]
  · intro a r heq
    cases a with
    | nil => exact absurd (List.cons.inj heq).1 hangle
    | cons c a =>
      obtain ⟨rfl, htail⟩ := List.cons.inj heq
      -- The bracket stands in front of the closing quote.
      have ha : q ∉ a := by
        obtain ⟨b, rfl, hb⟩ | ⟨b, rfl, -⟩ := List.append_eq_append_iff.mp htail
        · cases b with
          | nil => exact absurd (List.cons.inj hb).1 hangle
          | cons d b => simp at hb
        · exact fun hmem => ht (by simp [hmem])
      have hcons : quoteState none (q :: a) = quoteState (some q) a := by simp [quoteState, hopen]
      rw [hcons, quoteState_inside ha]
      simp

end Quoted

theorem quoted_blank (h : Blank t) : Quoted t := by
  refine .of_plain fun c hc => ⟨?_, ?_, ?_⟩ <;> rintro rfl <;> exact absurd (h _ hc) (by decide)

theorem quoted_name {n : Text} (h : ∀ c ∈ n, Token.isNameChar c = true) : Quoted n := by
  refine .of_plain fun c hc => ?_
  obtain ⟨-, h₁, h₂, h₃, -⟩ := Lexed.isNameChar_cases (h c hc)
  exact ⟨h₁, h₂, h₃⟩

theorem quoted_char {c : Char} (h₁ : c ≠ '"') (h₂ : c ≠ '\'') (h₃ : c ≠ '<') : Quoted [c] := by
  refine .of_plain fun d hd => ?_
  obtain rfl := List.mem_singleton.mp hd
  exact ⟨h₁, h₂, h₃⟩

theorem quoted_slash : Quoted ['/'] := quoted_char (by decide) (by decide) (by decide)

theorem StartTag.Glued.quoted {m : Text} (h : Glued m f) : Quoted m := by
  induction m with
  | nil => exact .of_plain (by simp)
  | cons c m ih =>
    have hc : c ≠ '"' ∧ c ≠ '\'' ∧ c ≠ '<' := by
      refine ⟨?_, ?_, ?_⟩ <;> rintro rfl <;> exact absurd h.1 (by simp [gluing_of_ne, Token.isNameChar])
    exact (quoted_char hc.1 hc.2.1 hc.2.2).append (ih h.2)

theorem Written.Fits.quoted {w : Written} (h : w.Fits f) : Quoted w.text := by
  cases w with
  | quoted q c => exact .of_quotes h.1 h.2
  | bare c => exact h.2.quoted

theorem TagItem.Fits.quoted {i : TagItem} (h : i.Fits f) : Quoted i.text := by
  cases i with
  | slash b => exact (quoted_blank h.1).append quoted_slash
  | attr b n a =>
    obtain ⟨hb, hn, ha⟩ := h
    refine (quoted_blank hb).append ((quoted_name hn.chars).append ?_)
    cases a with
    | none => exact .of_plain (by simp [assignedText])
    | some a =>
      obtain ⟨hbefore, hbehind, hvalue⟩ := ha
      have hequals : Quoted ['='] := quoted_char (by decide) (by decide) (by decide)
      exact (quoted_blank hbefore).append (hequals.append ((quoted_blank hbehind).append hvalue.quoted))

theorem TagItem.AllFit.quoted {is : List TagItem} (h : AllFit is f) : Quoted (allText is) := by
  induction is with
  | nil => exact .of_plain (by simp)
  | cons i is ih =>
    rw [allText_cons]
    exact h.1.quoted.append (ih h.2)

namespace TagShape

variable {s s' : TagShape}

theorem exists_quoted (h : s.Fits f) : ∃ m, s.text = '<' :: (m ++ ['>']) ∧ Quoted m := by
  have hfront : Quoted (s.name ++ (TagItem.allText s.items ++ s.blank)) :=
    (quoted_name h.name.chars).append (h.items.quoted.append (quoted_blank h.blank))
  cases hsc : s.selfClosing with
  | false => exact ⟨_, by simp [text, tail, hsc, StartTag.closing], hfront⟩
  | true =>
    refine ⟨s.name ++ (TagItem.allText s.items ++ s.blank) ++ ['/'], ?_, ?_⟩
    · simp [text, tail, hsc, StartTag.closing]
    · exact hfront.append quoted_slash

theorem eq_nil_of_suffix {d : Text} (h : s.Fits f) (h' : s'.Fits g) (heq : s.text = d ++ s'.text) :
    d = [] := by
  obtain ⟨m, hm, hquoted⟩ := exists_quoted h
  obtain ⟨m', hm', hquoted'⟩ := exists_quoted h'
  cases d with
  | nil => rfl
  | cons c d =>
    rw [hm, hm', List.cons_append] at heq
    have htail : m ++ ['>'] = (d ++ '<' :: m') ++ ['>'] := by
      rw [(List.cons.inj heq).2]
      simp
    have hinner : m = d ++ '<' :: m' := List.append_cancel_right htail
    -- The quotes that are open at the inner bracket would be closed by the same text as no quotes.
    have hopen : quoteState none (d ++ ['<']) = none := by
      have hclosed := hquoted.closed
      rw [hinner, ← List.singleton_append, ← List.append_assoc, quoteState_append] at hclosed
      have hvalid : ValidQuote none := trivial
      exact quoteState_injective (hvalid.state _) hvalid (hclosed.trans hquoted'.closed.symm)
    have hkeep : quoteState none (d ++ ['<']) = quoteState none d := by
      rw [quoteState_append]
      cases hq : quoteState none d with
      | none => rfl
      | some q =>
        have hnone : ValidQuote none := trivial
        have hvalid : ValidQuote (some q) := hq ▸ hnone.state d
        have hne : ('<' : Char) ≠ q := by
          rintro rfl
          rcases hvalid with h | h <;> cases h
        simp [quoteState, quoteAfter, hne]
    exact absurd (hkeep.symm.trans hopen) (hquoted.angle d m' hinner)

theorem start_unique {a b : Text} (h : s.Fits f) (h' : s'.Fits g)
    (heq : a ++ (s.text ++ f) = b ++ (s'.text ++ g)) (hsize : f.size = g.size) : a = b := by
  obtain ⟨hfront, -⟩ := Text.append_inj_of_size
    (show (a ++ s.text) ++ f = (b ++ s'.text) ++ g by simpa using heq) hsize
  obtain ⟨d, rfl, hd⟩ | ⟨d, rfl, hd⟩ := List.append_eq_append_iff.mp hfront
  · rw [eq_nil_of_suffix h h' hd, List.append_nil]
  · rw [eq_nil_of_suffix h' h hd, List.append_nil]

end TagShape

end SfcTsx.Markup
