import SfcTsx.Markup.StartTag
import SfcTsx.Proofs.Text
import Mathlib.Data.List.TakeWhile

namespace SfcTsx.Text

variable {f m t n b rest : Text} {fuel : Nat}

theorem exists_run (p : Char → Bool) (t : Text) : ∃ s u, t = s ++ u ∧ (∀ c ∈ s, p c = true) ∧
    ∀ c ∈ u.head?, p c = false := by
  refine ⟨t.takeWhile p, t.dropWhile p, List.takeWhile_append_dropWhile.symm,
    fun c hc => List.mem_takeWhile_imp hc, ?_⟩
  intro c hc
  have h := List.head?_dropWhile_not p t
  rw [hc] at h
  simpa using h

end SfcTsx.Text

namespace SfcTsx.Markup

variable {c : Char} {k : TokenKind}

theorem exists_of_bind_ok {ε α β : Type} {x : Except ε α} {g : α → Except ε β} {b : β}
    (h : x >>= g = .ok b) : ∃ a, x = .ok a ∧ g a = .ok b := by
  cases x with
  | error e => cases h
  | ok a => exact ⟨a, rfl, h⟩

theorem exists_of_bind_error {ε α β : Type} {x : Except ε α} {g : α → Except ε β} {e : ε}
    (h : x >>= g = .error e) : x = .error e ∨ ∃ a, x = .ok a ∧ g a = .error e := by
  cases x with
  | error e' =>
    cases h
    exact .inl rfl
  | ok a => exact .inr ⟨a, rfl, h⟩

def Blank (t : Text) : Prop := ∀ c ∈ t, Text.isTagSpace c = true

def IsQuote (c : Char) : Prop := c = '"' ∨ c = '\''

theorem IsQuote.utf8Size (h : IsQuote c) : c.utf8Size = 1 := by
  rcases h with rfl | rfl <;> rfl

/-- A name of a tag or attribute, in front of what follows it. -/
structure IsName (name follow : Text) : Prop where
  ne_nil : name ≠ []
  chars : ∀ c ∈ name, Token.isNameChar c = true
  ends : ∀ c ∈ follow.head?, Token.isNameChar c = false

/-- The tokens: their kind, their text and what may follow them. -/
inductive Lexed : TokenKind → Text → Text → Prop
  | endOfText : Lexed .endOfText [] []
  | openAngleSlash (f : Text) : Lexed .openAngleSlash ['<', '/'] f
  | openAngle {f : Text} (hf : f.head? ≠ some '/') : Lexed .openAngle ['<'] f
  | closeAngle (f : Text) : Lexed .closeAngle ['>'] f
  | slashCloseAngle (f : Text) : Lexed .slashCloseAngle ['/', '>'] f
  | slash {f : Text} (hf : f.head? ≠ some '>') : Lexed .slash ['/'] f
  | equals (f : Text) : Lexed .equals ['='] f
  | quoted {q : Char} {c : Text} (f : Text) (hq : IsQuote q) (hc : q ∉ c) :
      Lexed .quoted (q :: (c ++ [q])) f
  | invalid {q : Char} {c : Text} (hq : IsQuote q) (hc : q ∉ c) : Lexed .invalid (q :: c) []
  | name {n f : Text} (h : IsName n f) : Lexed .name n f

namespace Lexed

theorem isNameChar_cases (h : Token.isNameChar c = true) :
    Text.isTagSpace c = false ∧ c ≠ '"' ∧ c ≠ '\'' ∧ c ≠ '<' ∧ c ≠ '>' ∧ c ≠ '=' ∧ c ≠ '/' := by
  simpa [Token.isNameChar, not_or, and_assoc] using h

theorem not_isTagSpace (h : Lexed k t f) : ∀ c ∈ (t ++ f).head?, Text.isTagSpace c = false := by
  intro c hc
  cases h with
  | endOfText => cases hc
  | quoted f hq _ =>
    obtain rfl := Option.some.inj hc
    rcases hq with rfl | rfl <;> rfl
  | invalid hq _ =>
    obtain rfl := Option.some.inj hc
    rcases hq with rfl | rfl <;> rfl
  | name h =>
    cases t with
    | nil => exact absurd rfl h.ne_nil
    | cons d t =>
      obtain rfl := Option.some.inj hc
      exact (isNameChar_cases (h.chars d (by simp))).1
  | _ =>
    obtain rfl := Option.some.inj hc
    rfl

theorem classify_quote {q : Char} (hq : IsQuote q) (cs : Text) : Token.classify (q :: cs) =
    if (cs.takeWhile (· != q)).length < cs.length then
      (.quoted, (cs.takeWhile (· != q)).length + 2)
    else (.invalid, cs.length + 1) := by
  rcases hq with rfl | rfl <;> simp [Token.classify]

theorem classify_name (hc : Token.isNameChar c = true) (cs : Text) :
    Token.classify (c :: cs) = (.name, 1 + (cs.takeWhile Token.isNameChar).length) := by
  obtain ⟨-, h1, h2, h3, h4, h5, h6⟩ := isNameChar_cases hc
  have hq : (c == '"' || c == '\'') = false := by simp [h1, h2]
  unfold Token.classify
  split <;> simp_all

theorem takeWhile_ne {q : Char} {c : Text} (hc : q ∉ c) : (c ++ q :: f).takeWhile (· != q) = c := by
  refine Text.takeWhile_run (fun x hx => ?_) (by simp)
  have hne : x ≠ q := fun he => hc (he ▸ hx)
  simpa using hne

theorem classify_eq (h : Lexed k t f) : Token.classify (t ++ f) = (k, t.length) := by
  cases h with
  | endOfText => rfl
  | openAngleSlash f => rfl
  | openAngle hf =>
    cases f with
    | nil => rfl
    | cons d f =>
      have hd : d ≠ '/' := fun he => hf (by rw [he]; rfl)
      simp [Token.classify, hd]
  | closeAngle f => rfl
  | slashCloseAngle f => rfl
  | slash hf =>
    cases f with
    | nil => rfl
    | cons d f =>
      have hd : d ≠ '>' := fun he => hf (by rw [he]; rfl)
      simp [Token.classify, hd]
  | equals f => rfl
  | @quoted q c _ hq hc =>
    have happ : q :: (c ++ [q]) ++ f = q :: (c ++ q :: f) := by simp
    rw [happ, classify_quote hq, takeWhile_ne hc, if_pos (by simp)]
    simp
  | @invalid q c hq hc =>
    have hall : c.takeWhile (· != q) = c := by
      refine List.takeWhile_eq_self_iff.mpr fun x hx => ?_
      have hne : x ≠ q := fun he => hc (he ▸ hx)
      simpa using hne
    rw [List.append_nil, classify_quote hq, hall, if_neg (Nat.lt_irrefl _)]
    rfl
  | name h =>
    cases t with
    | nil => exact absurd rfl h.ne_nil
    | cons d t =>
      have hrun := Text.takeWhile_run (fun c hc => h.chars c (by simp [hc])) h.ends (s := t)
      rw [List.cons_append, classify_name (h.chars d (by simp)), hrun, List.length_cons,
        Nat.add_comm]

theorem exists_of_head (h : ∀ c ∈ t.head?, Text.isTagSpace c = false) :
    ∃ k s f, t = s ++ f ∧ Lexed k s f := by
  cases t with
  | nil => exact ⟨_, [], [], rfl, .endOfText⟩
  | cons c cs =>
    by_cases hn : Token.isNameChar c = true
    · obtain ⟨s, u, rfl, hs, hu⟩ := Text.exists_run Token.isNameChar cs
      refine ⟨_, c :: s, u, rfl, .name ⟨by simp, ?_, hu⟩⟩
      intro d hd
      rcases List.mem_cons.mp hd with rfl | hd
      · exact hn
      · exact hs d hd
    have hmark : IsQuote c ∨ c = '<' ∨ c = '>' ∨ c = '=' ∨ c = '/' := by
      have hc := h c rfl
      simp only [Token.isNameChar, hc, Bool.false_or, Bool.not_eq_true, Bool.not_eq_false',
        Bool.or_eq_true, beq_iff_eq] at hn
      simpa only [IsQuote, or_assoc] using hn
    rcases hmark with hq | rfl | rfl | rfl | rfl
    · obtain ⟨s, u, rfl, hs, hu⟩ := Text.exists_run (· != c) cs
      have hmem : c ∉ s := fun hc => by simpa using hs c hc
      cases u with
      | nil => exact ⟨_, c :: s, [], by simp, .invalid hq hmem⟩
      | cons d u =>
        obtain rfl : d = c := by simpa using hu d rfl
        exact ⟨_, d :: (s ++ [d]), u, by simp, .quoted u hq hmem⟩
    · by_cases hf : cs.head? = some '/'
      · obtain ⟨u, rfl⟩ := List.head?_eq_some_iff.mp hf
        exact ⟨_, ['<', '/'], u, rfl, .openAngleSlash u⟩
      · exact ⟨_, ['<'], cs, rfl, .openAngle hf⟩
    · exact ⟨_, ['>'], cs, rfl, .closeAngle cs⟩
    · exact ⟨_, ['='], cs, rfl, .equals cs⟩
    · by_cases hf : cs.head? = some '>'
      · obtain ⟨u, rfl⟩ := List.head?_eq_some_iff.mp hf
        exact ⟨_, ['/', '>'], u, rfl, .slashCloseAngle u⟩
      · exact ⟨_, ['/'], cs, rfl, .slash hf⟩

theorem next_eq (hb : Blank b) (h : Lexed k t f) (offset : Nat) :
    Token.next offset (b ++ (t ++ f)) =
      (⟨k, t, ⟨offset + b.size, offset + b.size + t.size⟩⟩, f) := by
  have hblank := Text.takeWhile_run hb h.not_isTagSpace
  simp [Token.next, hblank, h.classify_eq]

theorem exists_next (text : Text) : ∃ b k t f, text = b ++ (t ++ f) ∧ Blank b ∧ Lexed k t f := by
  obtain ⟨b, u, rfl, hb, hu⟩ := Text.exists_run Text.isTagSpace text
  obtain ⟨k, t, f, rfl, h⟩ := exists_of_head hu
  exact ⟨b, k, t, f, rfl, hb, h⟩

end Lexed

namespace StartTag

/-- The text goes on with a token of a value without quotes. -/
def gluing : Text → Bool
  | [] => false
  | '/' :: f => f.head? != some '>'
  | c :: _ => Token.isNameChar c

/-- A value without quotes goes on with the first text and ends in front of the second one. -/
def Glued : Text → Text → Prop
  | [], f => gluing f = false
  | c :: m, f => gluing (c :: (m ++ f)) = true ∧ Glued m f

theorem gluing_slash (f : Text) : gluing ('/' :: f) = (f.head? != some '>') := rfl

theorem gluing_of_ne (hc : c ≠ '/') (f : Text) : gluing (c :: f) = Token.isNameChar c := by
  unfold gluing
  split <;> simp_all

theorem gluing_name (hc : Token.isNameChar c = true) (f : Text) : gluing (c :: f) = true := by
  have hslash : c ≠ '/' := (Lexed.isNameChar_cases hc).2.2.2.2.2.2
  rw [gluing_of_ne hslash, hc]

theorem not_isNameChar_of_gluing (h : gluing f = false) :
    ∀ c ∈ f.head?, Token.isNameChar c = false := by
  intro c hc
  obtain ⟨u, rfl⟩ := List.head?_eq_some_iff.mp hc
  by_contra hn
  rw [gluing_name (by simpa using hn)] at h
  cases h

theorem Glued.ends (h : Glued m f) : gluing f = false := by
  induction m with
  | nil => exact h
  | cons c m ih => exact ih h.2

theorem Glued.append_name (hn : ∀ c ∈ n, Token.isNameChar c = true)
    (h : Glued m f) : Glued (n ++ m) f := by
  induction n with
  | nil => exact h
  | cons c n ih =>
    exact ⟨gluing_name (hn c (by simp)) _, ih fun d hd => hn d (by simp [hd])⟩

theorem Glued.of_append (h : Glued (n ++ m) f) : Glued m f := by
  induction n with
  | nil => exact h
  | cons c n ih => exact ih h.2

theorem exists_glued (text : Text) : ∃ m f, text = m ++ f ∧ Glued m f := by
  induction text with
  | nil => exact ⟨[], [], rfl, rfl⟩
  | cons c cs ih =>
    cases hg : gluing (c :: cs) with
    | false => exact ⟨[], c :: cs, rfl, hg⟩
    | true =>
      obtain ⟨m, f, rfl, h⟩ := ih
      exact ⟨c :: m, f, rfl, hg, h⟩

theorem gluedFrom_nil (h : gluing f = false) (fuel offset : Nat) :
    gluedFrom fuel offset f = ([], f) := by
  cases fuel with
  | zero => rfl
  | succ fuel =>
    obtain ⟨b, k, t, u, rfl, hb, hk⟩ := Lexed.exists_next f
    rw [gluedFrom, Lexed.next_eq hb hk]
    refine if_neg ?_
    simp only [Bool.and_eq_true, decide_eq_true_eq, Bool.or_eq_true, not_and, not_or]
    intro hstart
    obtain rfl : b = [] := Text.size_eq_zero.mp (by omega)
    cases hk with
    | slash hf =>
      cases u with
      | nil => simp [gluing_slash] at h
      | cons d u => simp_all [gluing_slash]
    | name hn =>
      cases t with
      | nil => exact absurd rfl hn.ne_nil
      | cons c t => rw [List.nil_append, List.cons_append, gluing_name (hn.chars c (by simp))] at h; cases h
    | _ => simp

theorem Glued.exists_token (h : Glued (c :: m) f) :
    ∃ k n m', c :: m = n ++ m' ∧ Lexed k n (m' ++ f) ∧ (k = .name ∨ k = .slash) ∧ n ≠ [] := by
  by_cases hc : Token.isNameChar c = true
  · obtain ⟨n, m', rfl, hn, hm'⟩ := Text.exists_run Token.isNameChar m
    refine ⟨_, c :: n, m', rfl, .name ⟨by simp, ?_, ?_⟩, .inl rfl, by simp⟩
    · intro d hd
      rcases List.mem_cons.mp hd with rfl | hd
      · exact hc
      · exact hn d hd
    · cases m' with
      | nil => exact not_isNameChar_of_gluing h.ends
      | cons d m' => exact hm'
  · have hg := h.1
    by_cases hslash : c = '/'
    · subst hslash
      rw [gluing_slash] at hg
      exact ⟨_, ['/'], m, rfl, .slash (by simpa using hg), .inr rfl, by simp⟩
    · rw [gluing_of_ne hslash] at hg
      exact absurd hg hc

theorem gluedFrom_eq (h : Glued m f) (hfuel : m.length ≤ fuel)
    (offset : Nat) : gluedFrom fuel offset (m ++ f) = (m, f) := by
  induction fuel generalizing m offset with
  | zero =>
    obtain rfl : m = [] := List.length_eq_zero_iff.mp (by omega)
    rfl
  | succ fuel ih =>
    cases m with
    | nil => exact gluedFrom_nil h _ _
    | cons c m =>
      obtain ⟨k, n, m', hm, hk, hkind, hne⟩ := h.exists_token
      have hlen : n.length + m'.length ≤ fuel + 1 := by
        rw [← List.length_append, ← hm]; exact hfuel
      have hpos := List.length_pos_iff.mpr hne
      rw [hm] at h ⊢
      have hnext := Lexed.next_eq (b := []) (by simp [Blank]) hk offset
      rw [List.nil_append, ← List.append_assoc] at hnext
      have hgo : (decide (k = .name) || decide (k = .slash)) = true := by simpa using hkind
      rw [gluedFrom, hnext]
      simp only [Text.size_nil, Nat.add_zero, decide_true, Bool.true_and, hgo, if_true]
      rw [ih h.of_append (by omega)]

end StartTag

inductive Written where
  | quoted (quote : Char) (content : Text)
  | bare (content : Text)

namespace Written

def content : Written → Text
  | quoted _ c | bare c => c

def text : Written → Text
  | quoted q c => q :: (c ++ [q])
  | bare c => c

def lead : Written → Nat
  | quoted .. => 1
  | bare _ => 0

def value (w : Written) (offset : Nat) : Value :=
  ⟨w.content, ⟨offset + w.lead, offset + w.lead + w.content.size⟩⟩

/-- The text of the value ends where the value does. -/
def Fits : Written → Text → Prop
  | quoted q c, _ => IsQuote q ∧ q ∉ c
  | bare c, f => c ≠ [] ∧ StartTag.Glued c f

theorem scanValue_eq {w : Written} (hb : Blank b) (h : w.Fits f) (name equals : Token) :
    StartTag.scanValue name equals (b ++ (w.text ++ f)) =
      .ok (w.value (equals.span.stop + b.size), equals.span.stop + b.size + w.text.size, f) := by
  cases w with
  | quoted q c =>
    rw [text, StartTag.scanValue, Lexed.next_eq hb (.quoted f h.1 h.2)]
    simp [value, content, lead, h.1.utf8Size]
    omega
  | bare c =>
    obtain ⟨hne, hglued⟩ := h
    cases c with
    | nil => exact absurd rfl hne
    | cons c m =>
      obtain ⟨k, n, m', hm, hk, hkind, -⟩ := hglued.exists_token
      have hmore : StartTag.gluedFrom (m' ++ f).length
          (equals.span.stop + b.size + Text.size n) (m' ++ f) = (m', f) :=
        StartTag.gluedFrom_eq (hm ▸ hglued).of_append (by simp) _
      have hnext := Lexed.next_eq hb hk equals.span.stop
      rw [text, hm, List.append_assoc, StartTag.scanValue, hnext]
      rcases hkind with rfl | rfl <;> simp only [hmore] <;>
        simp [value, content, lead]

theorem exists_of_scanValue {name equals : Token} {v : Value} {stop : Nat}
    (h : StartTag.scanValue name equals rest = .ok (v, stop, f)) :
    ∃ b w, rest = b ++ (text w ++ f) ∧ Blank b ∧ w.Fits f := by
  obtain ⟨b, k, t, u, rfl, hb, hk⟩ := Lexed.exists_next rest
  rw [StartTag.scanValue, Lexed.next_eq hb hk] at h
  obtain ⟨m, g, hu, hm⟩ := StartTag.exists_glued u
  have hmore : ∀ o, StartTag.gluedFrom u.length o u = (m, g) := by
    intro o
    rw [hu]
    exact StartTag.gluedFrom_eq hm (by simp) o
  cases hk with
  | @quoted q c _ hq hc =>
    obtain ⟨-, -, rfl⟩ : _ ∧ _ ∧ u = f := by simpa using h
    exact ⟨b, .quoted q c, by simp [text], hb, hq, hc⟩
  | name hn =>
    simp only [hmore] at h
    obtain ⟨-, -, rfl⟩ : _ ∧ _ ∧ g = f := by simpa using h
    exact ⟨b, .bare (t ++ m), by simp [text, hu], hb, by simp [hn.ne_nil], hm.append_name hn.chars⟩
  | slash hf =>
    simp only [hmore] at h
    obtain ⟨-, -, rfl⟩ : _ ∧ _ ∧ g = f := by simpa using h
    refine ⟨b, .bare ('/' :: m), by simp [text, hu], hb, by simp, ?_, hm⟩
    rw [← hu]
    simpa [StartTag.gluing_slash] using hf
  | _ => cases h

end Written

structure Assigned where
  before : Text
  behind : Text
  value : Written

namespace Assigned

def text (a : Assigned) : Text := a.before ++ '=' :: (a.behind ++ a.value.text)

structure Fits (a : Assigned) (follow : Text) : Prop where
  before : Blank a.before
  behind : Blank a.behind
  value : a.value.Fits follow

def start (a : Assigned) (offset : Nat) : Nat := offset + a.before.size + 1 + a.behind.size

theorem size_text (a : Assigned) (offset : Nat) :
    offset + a.text.size = a.start offset + a.value.text.size := by
  have : ('=' : Char).utf8Size = 1 := rfl
  simp [text, start, this]
  omega

end Assigned

/-- What stands in a start tag behind its name. -/
inductive TagItem where
  | slash (blank : Text)
  | attr (blank name : Text) (assigned : Option Assigned)

namespace TagItem

def assignedText (a : Option Assigned) : Text := (a.map Assigned.text).getD []

def text : TagItem → Text
  | slash b => b ++ ['/']
  | attr b n a => b ++ (n ++ assignedText a)

def rawAttr (name : Text) (start : Nat) (a : Option Assigned) : RawAttr :=
  let nameStop := start + name.size
  { name := String.ofList name
    nameSpan := ⟨start, nameStop⟩
    value := a.map fun a => a.value.value (a.start nameStop)
    span := ⟨start, nameStop + (assignedText a).size⟩ }

def rawAttr? (offset : Nat) : TagItem → Option RawAttr
  | slash _ => none
  | attr b n a => some (rawAttr n (offset + b.size) a)

/-- Nothing assigns to a name in front of the text. -/
def Unassigned (follow : Text) : Prop := (follow.dropWhile Text.isTagSpace).head? ≠ some '='

def AssignedFits : Option Assigned → Text → Prop
  | none, f => Unassigned f
  | some a, f => a.Fits f

def Fits : TagItem → Text → Prop
  | slash b, f => Blank b ∧ f.head? ≠ some '>'
  | attr b n a, f => Blank b ∧ IsName n (assignedText a ++ f) ∧ AssignedFits a f

theorem text_ne_nil {i : TagItem} (h : i.Fits f) : i.text ≠ [] := by
  cases i with
  | slash b => simp [text]
  | attr b n a => simp [text, h.2.1.ne_nil]

theorem kind_eq_equals_iff (hb : Blank b) (h : Lexed k t f) :
    k = .equals ↔ ¬ Unassigned (b ++ (t ++ f)) := by
  have hdrop : (b ++ (t ++ f)).dropWhile Text.isTagSpace = t ++ f :=
    Text.dropWhile_run hb h.not_isTagSpace
  rw [Unassigned, hdrop, not_not]
  cases h with
  | endOfText => simp
  | quoted f hq hc => rcases hq with rfl | rfl <;> simp
  | invalid hq hc => rcases hq with rfl | rfl <;> simp
  | name hn =>
    cases t with
    | nil => exact absurd rfl hn.ne_nil
    | cons c t =>
      have := (Lexed.isNameChar_cases (hn.chars c (by simp))).2.2.2.2.2.1
      simpa using this
  | _ => simp

theorem scanAttr_eq {a : Option Assigned} (h : AssignedFits a f) (start : Nat) :
    StartTag.scanAttr ⟨.name, n, ⟨start, start + n.size⟩⟩ (assignedText a ++ f) =
      .ok (rawAttr n start a, (rawAttr n start a).span.stop, f) := by
  cases a with
  | none =>
    obtain ⟨b, k, t, u, rfl, hb, hk⟩ := Lexed.exists_next f
    have hkind : k ≠ .equals := fun he => (kind_eq_equals_iff hb hk).mp he h
    rw [assignedText, Option.map_none, Option.getD_none, List.nil_append, StartTag.scanAttr,
      Lexed.next_eq hb hk]
    simp [hkind, rawAttr, assignedText]
  | some a =>
    have happ : assignedText (some a) ++ f = a.before ++ (['='] ++ (a.behind ++ (a.value.text ++ f))) := by
      simp [assignedText, Assigned.text]
    have hsize := a.size_text (start + n.size)
    have hvalue := Written.scanValue_eq h.behind h.value ⟨.name, n, ⟨start, start + n.size⟩⟩
      ⟨.equals, ['='], ⟨start + n.size + a.before.size, start + n.size + a.before.size + 1⟩⟩
    rw [happ, StartTag.scanAttr, Lexed.next_eq h.before (.equals _)]
    have hone : Text.size ['='] = 1 := rfl
    simp only [hone, if_true, hvalue]
    simp only [Assigned.start] at hsize
    simp [bind, Except.bind, pure, Except.pure, rawAttr, assignedText, Assigned.start, hsize]

theorem exists_of_scanAttr {start stop : Nat} {r : RawAttr}
    (h : StartTag.scanAttr ⟨.name, n, ⟨start, start + n.size⟩⟩ rest = .ok (r, stop, f)) :
    ∃ a, rest = assignedText a ++ f ∧ AssignedFits a f := by
  obtain ⟨b, k, t, u, rfl, hb, hk⟩ := Lexed.exists_next rest
  rw [StartTag.scanAttr, Lexed.next_eq hb hk] at h
  by_cases hkind : k = .equals
  · subst hkind
    cases hk with
    | equals =>
      simp only [if_true] at h
      obtain ⟨⟨v, stop', f'⟩, hv, hr⟩ := exists_of_bind_ok h
      obtain ⟨b', w, rfl, hb', hw⟩ := Written.exists_of_scanValue hv
      obtain ⟨-, -, rfl⟩ : _ ∧ _ ∧ f' = f := by simpa [pure, Except.pure] using hr
      exact ⟨some ⟨b, b', w⟩, by simp [assignedText, Assigned.text], hb, hb', hw⟩
  · simp only [hkind, if_false] at h
    obtain ⟨-, -, rfl⟩ : _ ∧ _ ∧ b ++ (t ++ u) = f := by simpa using h
    refine ⟨none, rfl, ?_⟩
    by_contra hun
    exact hkind ((kind_eq_equals_iff hb hk).mpr hun)

def allText (items : List TagItem) : Text := items.flatMap text

@[simp] theorem allText_nil : allText [] = [] := rfl

@[simp] theorem allText_cons (i : TagItem) (is : List TagItem) :
    allText (i :: is) = i.text ++ allText is := List.flatMap_cons

def AllFit : List TagItem → Text → Prop
  | [], _ => True
  | i :: is, f => i.Fits (allText is ++ f) ∧ AllFit is f

def rawAttrs : Nat → List TagItem → List RawAttr
  | _, [] => []
  | offset, i :: is => (i.rawAttr? offset).toList ++ rawAttrs (offset + i.text.size) is

theorem AllFit.length_le {is : List TagItem} (h : AllFit is f) :
    is.length ≤ (allText is).length := by
  induction is with
  | nil => simp
  | cons i is ih =>
    have hi := List.length_pos_iff.mpr (text_ne_nil h.1)
    have := ih h.2
    simp only [allText_cons, List.length_append, List.length_cons]
    omega

end TagItem

namespace StartTag

def closing (selfClosing : Bool) : Text := if selfClosing then ['/', '>'] else ['>']

theorem exists_closing (blank : Text) (selfClosing : Bool) :
    ∃ t, blank ++ closing selfClosing = t ++ ['>'] := by
  cases selfClosing
  · exact ⟨blank, rfl⟩
  · exact ⟨blank ++ ['/'], by simp [closing]⟩

def closingKind (selfClosing : Bool) : TokenKind :=
  if selfClosing then .slashCloseAngle else .closeAngle

theorem lexed_closing (selfClosing : Bool) (f : Text) :
    Lexed (closingKind selfClosing) (closing selfClosing) f := by
  cases selfClosing
  · exact .closeAngle f
  · exact .slashCloseAngle f

def lastToken (offset : Nat) (blank : Text) (selfClosing : Bool) : Token :=
  let start := offset + blank.size
  ⟨closingKind selfClosing, closing selfClosing, ⟨start, start + (closing selfClosing).size⟩⟩

theorem scanAttrs_eq {items : List TagItem} {sc : Bool} (hb : Blank b)
    (h : TagItem.AllFit items (b ++ (closing sc ++ f))) (start : Nat) (tag : String)
    (hfuel : items.length < fuel) (offset : Nat) :
    scanAttrs start tag fuel offset (TagItem.allText items ++ (b ++ (closing sc ++ f))) =
      .ok (TagItem.rawAttrs offset items,
        lastToken (offset + (TagItem.allText items).size) b sc) := by
  induction fuel generalizing items offset with
  | zero => omega
  | succ fuel ih =>
    cases items with
    | nil =>
      rw [TagItem.allText_nil, List.nil_append, scanAttrs, Lexed.next_eq hb (lexed_closing sc f)]
      cases sc <;> rfl
    | cons i is =>
      have hfuel' : is.length < fuel := by simpa using hfuel
      obtain ⟨hi, his⟩ := h
      cases i with
      | slash b' =>
        have hrest := ih his hfuel' (offset + b'.size + 1)
        have hhead : (TagItem.allText is ++ (b ++ (closing sc ++ f))).head? ≠ some '>' := hi.2
        have happ : TagItem.allText (.slash b' :: is) ++ (b ++ (closing sc ++ f)) =
            b' ++ (['/'] ++ (TagItem.allText is ++ (b ++ (closing sc ++ f)))) := by
          simp [TagItem.text]
        have hone : ('/' : Char).utf8Size = 1 := rfl
        rw [happ, scanAttrs, Lexed.next_eq hi.1 (.slash hhead)]
        simp only [Text.size_cons, Text.size_nil, hone, hrest]
        simp [TagItem.rawAttrs, TagItem.rawAttr?, TagItem.text, hone, Nat.add_assoc]
      | attr b' n a =>
        obtain ⟨hb', hn, ha⟩ := hi
        have hattr := TagItem.scanAttr_eq (n := n) ha (offset + b'.size)
        have hrest := ih his hfuel' (TagItem.rawAttr n (offset + b'.size) a).span.stop
        have happ : TagItem.allText (.attr b' n a :: is) ++ (b ++ (closing sc ++ f)) =
            b' ++ (n ++ (TagItem.assignedText a ++ (TagItem.allText is ++ (b ++ (closing sc ++ f))))) := by
          simp [TagItem.text]
        rw [happ, scanAttrs, Lexed.next_eq hb' (.name hn)]
        simp only [hattr, bind, Except.bind, hrest]
        simp [pure, Except.pure, TagItem.rawAttrs, TagItem.rawAttr?, TagItem.text, TagItem.rawAttr,
          Nat.add_assoc]

theorem exists_of_scanAttrs {start offset : Nat} {tag : String}
    {attrs : List RawAttr} {last : Token}
    (h : scanAttrs start tag fuel offset rest = .ok (attrs, last)) :
    ∃ items b sc f, rest = TagItem.allText items ++ (b ++ (closing sc ++ f)) ∧ Blank b ∧
      TagItem.AllFit items (b ++ (closing sc ++ f)) := by
  induction fuel generalizing offset rest attrs last with
  | zero => cases h
  | succ fuel ih =>
    obtain ⟨b, k, t, f, rfl, hb, hk⟩ := Lexed.exists_next rest
    rw [scanAttrs, Lexed.next_eq hb hk] at h
    cases hk with
    | closeAngle f => exact ⟨[], b, false, f, by simp [closing], hb, trivial⟩
    | slashCloseAngle f => exact ⟨[], b, true, f, by simp [closing], hb, trivial⟩
    | slash hf =>
      obtain ⟨items, b', sc, f', rfl, hb', hfit⟩ := ih h
      exact ⟨.slash b :: items, b', sc, f', by simp [TagItem.text], hb', ⟨hb, hf⟩, hfit⟩
    | name hn =>
      obtain ⟨⟨attr, stop, rest⟩, hattr, hmore⟩ := exists_of_bind_ok h
      obtain ⟨a, rfl, ha⟩ := TagItem.exists_of_scanAttr hattr
      obtain ⟨⟨attrs', last'⟩, hrest, -⟩ := exists_of_bind_ok hmore
      obtain ⟨items, b', sc, f', rfl, hb', hfit⟩ := ih hrest
      exact ⟨.attr b t a :: items, b', sc, f', by simp [TagItem.text], hb', ⟨hb, hn, ha⟩, hfit⟩
    | _ => cases h

end StartTag

/-- A start tag as it is written. -/
structure TagShape where
  name : Text
  items : List TagItem
  blank : Text
  selfClosing : Bool

variable {s : TagShape}

namespace TagShape

def tail (s : TagShape) : Text :=
  TagItem.allText s.items ++ (s.blank ++ StartTag.closing s.selfClosing)

def text (s : TagShape) : Text := '<' :: (s.name ++ s.tail)

theorem size_text (s : TagShape) : s.text.size = 1 + s.name.size +
    ((TagItem.allText s.items).size + (s.blank ++ StartTag.closing s.selfClosing).size) := by
  have hone : ('<' : Char).utf8Size = 1 := rfl
  simp only [text, tail, Text.size_cons, Text.size_append, hone]
  omega

/-- A text that goes on as given is a start tag of this form. -/
structure Fits (s : TagShape) (follow : Text) : Prop where
  letter : (s.name.head?.map Char.isAlpha).getD false = true
  name : IsName s.name (s.tail ++ follow)
  items : TagItem.AllFit s.items (s.blank ++ (StartTag.closing s.selfClosing ++ follow))
  blank : Blank s.blank

def startTag (s : TagShape) (offset : Nat) : StartTag where
  name := String.ofList s.name
  nameSpan := ⟨offset + 1, offset + 1 + s.name.size⟩
  attrs := TagItem.rawAttrs (offset + 1 + s.name.size) s.items
  span := ⟨offset, offset + s.text.size⟩
  selfClosing := s.selfClosing

theorem head?_name (h : s.Fits f) : ∃ c n, s.name = c :: n ∧ c.isAlpha := by
  cases hn : s.name with
  | nil => exact absurd hn h.name.ne_nil
  | cons c n => exact ⟨c, n, rfl, by simpa [hn] using h.letter⟩

theorem lexed_open (h : s.Fits f) : Lexed .openAngle ['<'] (s.name ++ (s.tail ++ f)) := by
  refine .openAngle ?_
  obtain ⟨c, n, hn, hc⟩ := head?_name h
  rw [hn]
  rintro ⟨⟩
  cases hc

/-- Reading a text that begins with a start tag gives the tag. -/
theorem scan_eq (h : s.Fits f) (offset : Nat) :
    StartTag.scan offset (s.text ++ f) = .ok (s.startTag offset) := by
  have hblank : Blank [] := by simp [Blank]
  have hopen := Lexed.next_eq hblank (lexed_open h) offset
  have hname := Lexed.next_eq hblank (.name h.name) (offset + 1)
  have hlen : s.items.length < (s.tail ++ f).length + 1 := by
    have := h.items.length_le
    simp only [tail, List.length_append]
    omega
  have htail : s.tail ++ f =
      TagItem.allText s.items ++ (s.blank ++ (StartTag.closing s.selfClosing ++ f)) := by
    simp [tail]
  have hattrs := StartTag.scanAttrs_eq h.blank h.items offset (String.ofList s.name) hlen
    (offset + 1 + s.name.size)
  rw [← htail] at hattrs
  have happ : s.text ++ f = [] ++ (['<'] ++ (s.name ++ (s.tail ++ f))) := by simp [text]
  have hone : Text.size ['<'] = 1 := rfl
  have hbracket : ('<' : Char).utf8Size = 1 := rfl
  rw [List.nil_append] at hname
  rw [StartTag.scan, happ, hopen]
  simp only [hone, Text.size_nil, Nat.add_zero, hname, hattrs]
  cases hsc : s.selfClosing <;>
    simp [h.letter, bind, Except.bind, pure, Except.pure, startTag, text, tail, hsc,
      StartTag.lastToken, StartTag.closingKind, StartTag.closing, hbracket, Nat.add_assoc]

/-- Only texts that begin with a start tag are read. -/
theorem exists_of_scan {offset : Nat} {tag : StartTag}
    (h : StartTag.scan offset ('<' :: rest) = .ok tag) :
    ∃ s f, '<' :: rest = text s ++ f ∧ s.Fits f ∧ tag = s.startTag offset := by
  suffices hshape : ∃ s f, '<' :: rest = text s ++ f ∧ s.Fits f by
    obtain ⟨s, f, htext, hfit⟩ := hshape
    rw [htext, scan_eq hfit] at h
    exact ⟨s, f, htext, hfit, (Except.ok.inj h).symm⟩
  have hblank : Blank [] := by simp [Blank]
  by_cases hhead : rest.head? = some '/'
  · obtain ⟨u, rfl⟩ := List.head?_eq_some_iff.mp hhead
    cases h
  have hopen := Lexed.next_eq hblank (.openAngle hhead) offset
  obtain ⟨b, k, n, f, rfl, hb, hk⟩ := Lexed.exists_next rest
  rw [List.nil_append, List.singleton_append] at hopen
  rw [StartTag.scan, hopen] at h
  simp only [Lexed.next_eq hb hk, ne_eq, not_true_eq_false, if_false] at h
  split at h
  next => cases h
  next hname =>
    simp only [Bool.or_eq_true, decide_eq_true_eq, Bool.not_eq_eq_eq_not, Bool.not_true, not_or,
      not_not, Bool.not_eq_false] at hname
    obtain ⟨⟨rfl, hstart⟩, hletter⟩ := hname
    obtain rfl : b = [] := Text.size_eq_zero.mp (by omega)
    obtain ⟨⟨attrs, last⟩, hattrs, -⟩ := exists_of_bind_ok h
    obtain ⟨items, b, sc, f, rfl, hb, hfit⟩ := StartTag.exists_of_scanAttrs hattrs
    cases hk with
    | name hn =>
      refine ⟨⟨n, items, b, sc⟩, f, by simp [text, tail], hletter, ?_, hfit, hb⟩
      simpa [tail] using hn

end TagShape

/-- Two texts that what stands in front of them in a tag cannot tell apart. -/
structure SameStart (f g : Text) : Prop where
  head : f.head? = g.head?
  solid : (f.dropWhile Text.isTagSpace).head? = (g.dropWhile Text.isTagSpace).head?
  gluing : StartTag.gluing f = StartTag.gluing g

theorem StartTag.gluing_cons {g : Text} (h : f.head? = g.head?) (c : Char) :
    gluing (c :: f) = gluing (c :: g) := by
  by_cases hc : c = '/'
  · subst hc
    rw [gluing_slash, gluing_slash, h]
  · rw [gluing_of_ne hc, gluing_of_ne hc]

theorem SameStart.append {g : Text} (h : SameStart f g) (t : Text) : SameStart (t ++ f) (t ++ g) := by
  induction t with
  | nil => exact h
  | cons c t ih =>
    refine ⟨rfl, ?_, StartTag.gluing_cons ih.head c⟩
    by_cases hc : Text.isTagSpace c = true
    · simpa [hc] using ih.solid
    · simp [hc]

theorem sameStart_closing (selfClosing : Bool) (f g : Text) :
    SameStart (StartTag.closing selfClosing ++ f) (StartTag.closing selfClosing ++ g) := by
  cases selfClosing <;> exact ⟨rfl, rfl, rfl⟩

section
variable {f g : Text} (h : SameStart f g)
include h

theorem IsName.congr (hn : IsName n f) : IsName n g :=
  ⟨hn.ne_nil, hn.chars, h.head ▸ hn.ends⟩

theorem StartTag.Glued.congr (hm : Glued m f) : Glued m g := by
  induction m with
  | nil => exact h.gluing.symm.trans hm
  | cons c m ih => exact ⟨(gluing_cons (h.append m).head c).symm.trans hm.1, ih hm.2⟩

theorem TagItem.AssignedFits.congr {a : Option Assigned} (ha : AssignedFits a f) :
    AssignedFits a g := by
  cases a with
  | none => exact fun hg => ha (h.solid.trans hg)
  | some a =>
    obtain ⟨hb, hb', hv⟩ := ha
    refine ⟨hb, hb', ?_⟩
    cases hw : a.value with
    | quoted q c => rwa [hw] at hv
    | bare c =>
      rw [hw] at hv
      exact ⟨hv.1, hv.2.congr h⟩

theorem TagItem.Fits.congr {i : TagItem} (hi : i.Fits f) : i.Fits g := by
  cases i with
  | slash b => exact ⟨hi.1, h.head ▸ hi.2⟩
  | attr b n a => exact ⟨hi.1, hi.2.1.congr (h.append _), hi.2.2.congr h⟩

theorem TagItem.AllFit.congr {is : List TagItem} (his : AllFit is f) : AllFit is g := by
  induction is with
  | nil => trivial
  | cons i is ih => exact ⟨his.1.congr (h.append _), ih his.2⟩

end

theorem TagShape.Fits.congr (h : s.Fits f) (g : Text) : s.Fits g := by
  have hsame := (sameStart_closing s.selfClosing f g).append s.blank
  refine ⟨h.letter, ?_, h.items.congr hsame, h.blank⟩
  have hname := h.name
  simp only [TagShape.tail, List.append_assoc] at hname ⊢
  exact hname.congr (hsame.append _)

end SfcTsx.Markup
