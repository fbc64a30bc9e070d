import SfcTsx.Markup.Directive
import SfcTsx.Proofs.Markup.TagSpans

namespace SfcTsx.Markup

def DirectiveArg.said (a : DirectiveArg) : Text × Bool := (a.content.toList, a.dynamic)

namespace Directive

/-- The parts of a directive that can be told apart once they are written. -/
structure Spelling where
  name : Text
  arg : Option (Text × Bool)
  modifiers : List Text
  name_head : ∃ c ∈ name.head?, c.isAlphanum = true
  name_chars : ∀ c ∈ name, c ≠ ':' ∧ c ≠ '.'
  fixed_arg : ∀ content, arg = some (content, false) →
    content ≠ [] ∧ '.' ∉ content ∧ content.head? ≠ some '['
  dynamic_arg : ∀ content, arg = some (content, true) → content ≠ [] ∧ ']' ∉ content
  modifier_chars : ∀ m ∈ modifiers, m ≠ [] ∧ '.' ∉ m

def argOpening (dynamic : Bool) : Text := if dynamic then [':', '['] else [':']

def argClosing (dynamic : Bool) : Text := if dynamic then [']'] else []

def argText (arg : Text × Bool) : Text := argOpening arg.2 ++ (arg.1 ++ argClosing arg.2)

def modifierText (modifiers : List Text) : Text := modifiers.flatMap ('.' :: ·)

def Spelling.text (s : Spelling) : Text :=
  'v' :: '-' :: (s.name ++ ((s.arg.map argText).getD [] ++ modifierText s.modifiers))

def Spelling.front (s : Spelling) (dynamic : Bool) : Text :=
  'v' :: '-' :: (s.name ++ argOpening dynamic)

/-- Each shorthand with the name it stands for and the modifiers it adds. -/
def shorthands : List (Char × String × List String) :=
  [(':', "bind", []), ('@', "on", []), ('#', "slot", []), ('.', "bind", ["prop"])]

theorem head?_modifierText (modifiers : List Text) : ∀ c ∈ (modifierText modifiers).head?, c = '.' := by
  cases modifiers with
  | nil => simp [modifierText]
  | cons m ms => simp [modifierText]

theorem splitModifiers_modifierText {modifiers : List Text} (h : ∀ m ∈ modifiers, m ≠ [] ∧ '.' ∉ m) :
    splitModifiers (modifierText modifiers) = modifiers.map String.ofList := by
  have hsplit : Text.splitOn '.' (modifierText modifiers) = [] :: modifiers :=
    Text.splitOn_flatMap (t := []) (by simp) fun m hm => (h m hm).2
  have hkept : modifiers.filter (!·.isEmpty) = modifiers := by
    apply List.filter_eq_self.mpr
    intro m hm
    simpa using (h m hm).1
  rw [splitModifiers, hsplit, List.filter_cons_of_neg (by simp), hkept]

theorem head?_long {name tail : Text} (hhead : ∃ c ∈ name.head?, c.isAlphanum = true)
    (hname : ∀ c ∈ name, c ≠ ':' ∧ c ≠ '.') (htail : ∀ c ∈ tail.head?, c = ':' ∨ c = '.') :
    head? ('v' :: '-' :: (name ++ tail)) = some ⟨name, tail, false⟩ := by
  cases name with
  | nil => simp at hhead
  | cons c name =>
    have hc : c.isAlphanum = true := by simpa using hhead
    have hrun : (c :: name ++ tail).takeWhile (fun c => c != ':' && c != '.') = c :: name := by
      apply Text.takeWhile_run
      · simpa using hname
      · intro d hd
        rcases htail d hd with rfl | rfl <;> rfl
    rw [List.cons_append] at hrun ⊢
    rw [head?, if_pos hc, hrun]
    simp

theorem scanArg_fixed {content rest : Text} (offset : Nat) (hne : content ≠ []) (hdot : '.' ∉ content)
    (hopen : content.head? ≠ some '[') (hrest : ∀ c ∈ rest.head?, c = '.') :
    scanArg offset (content ++ rest) =
      (some ⟨String.ofList content, ⟨offset, offset + content.size⟩, false⟩, rest) := by
  have hrun : (content ++ rest).takeWhile (· != '.') = content := by
    apply Text.takeWhile_run
    · intro c hc
      simpa using ne_of_mem_of_not_mem hc hdot
    · intro c hc
      simp [hrest c hc]
  unfold scanArg
  split
  next inner heq =>
    cases content with
    | nil => exact absurd rfl hne
    | cons c content => simp_all
  next => simp [hrun, hne]

theorem scanArg_dynamic {content : Text} (offset : Nat) (rest : Text) (hne : content ≠ [])
    (hclose : ']' ∉ content) :
    scanArg offset ('[' :: (content ++ ']' :: rest)) =
      (some ⟨String.ofList content, ⟨offset + 1, offset + 1 + content.size⟩, true⟩, rest) := by
  have hrun : (content ++ ']' :: rest).takeWhile (· != ']') = content := by
    apply Text.takeWhile_run
    · intro c hc
      simpa using ne_of_mem_of_not_mem hc hclose
    · simp
  simp [scanArg, hrun, hne]

theorem Spelling.scanTail_eq (s : Spelling) (offset : Nat) :
    scanTail offset ⟨s.name, (s.arg.map argText).getD [] ++ modifierText s.modifiers, false⟩ =
      (s.arg.map fun a => ⟨String.ofList a.1, ⟨offset + (argOpening a.2).size,
        offset + (argOpening a.2).size + a.1.size⟩, a.2⟩, modifierText s.modifiers) := by
  have hend := head?_modifierText s.modifiers
  rcases harg : s.arg with _ | ⟨content, _ | _⟩
  · cases hms : modifierText s.modifiers with
    | nil => rfl
    | cons c ms =>
      obtain rfl : c = '.' := hend c (by simp [hms])
      rfl
  · obtain ⟨hne, hdot, hopen⟩ := s.fixed_arg content harg
    have h := scanArg_fixed (offset + 1) hne hdot hopen hend
    simpa [scanTail, argText, argOpening, argClosing, Char.utf8Size] using h
  · obtain ⟨hne, hclose⟩ := s.dynamic_arg content harg
    have h := scanArg_dynamic (offset + 1) (modifierText s.modifiers) hne hclose
    simpa [scanTail, argText, argOpening, argClosing, Char.utf8Size] using h

theorem Spelling.at_arg (s : Spelling) {source rest content : Text} {dynamic : Bool} {start : Nat}
    (harg : s.arg = some (content, dynamic)) (hat : source.At start (s.text ++ rest)) :
    ∃ rest, source.At (start + (s.front dynamic).size) (content ++ rest) := by
  have hparts : s.text ++ rest = s.front dynamic ++
      (content ++ (argClosing dynamic ++ (modifierText s.modifiers ++ rest))) := by
    simp [text, front, harg, argText]
  rw [hparts] at hat
  exact ⟨_, hat.skip⟩

theorem scanArg_said (offset offset' : Nat) (tail : Text) :
    (scanArg offset tail).1.map DirectiveArg.said = (scanArg offset' tail).1.map DirectiveArg.said ∧
      (scanArg offset tail).2 = (scanArg offset' tail).2 := by
  unfold scanArg
  split
  · refine ⟨?_, rfl⟩
    simp only
    split <;> rfl
  · refine ⟨?_, rfl⟩
    simp only
    split <;> rfl

theorem ofRaw_shorthand {name t : Text} {own : List String} {a b : RawAttr}
    (ha : head? a.name.toList = some ⟨name, t, true⟩)
    (hown : (if a.name.toList.head? = some '.' then ["prop"] else []) = own)
    (hb : b.name.toList = 'v' :: '-' :: (name ++ ':' :: t))
    (hhead : ∃ c ∈ name.head?, c.isAlphanum = true) (hname : ∀ c ∈ name, c ≠ ':' ∧ c ≠ '.') :
    ∃ d e, Attr.ofRaw a = .directive d ∧ Attr.ofRaw b = .directive e ∧ d.name = String.ofList name ∧
      e.name = String.ofList name ∧ d.arg.map DirectiveArg.said = e.arg.map DirectiveArg.said ∧
      d.modifiers = e.modifiers ++ own := by
  have hlong : head? b.name.toList = some ⟨name, ':' :: t, false⟩ := by
    rw [hb]
    exact head?_long hhead hname (by simp)
  have hdot : b.name.toList.head? ≠ some '.' := by simp [hb]
  obtain ⟨hsaid, hrest⟩ := scanArg_said (a.nameSpan.stop - Text.size t)
    (b.nameSpan.stop - Text.size (':' :: t) + 1) t
  simp only [Attr.ofRaw, ha, hlong, hown, if_neg hdot, scanTail]
  exact ⟨_, _, rfl, rfl, rfl, rfl, hsaid, by simp [hrest]⟩

/-- A directive in its long form is read back with its argument in its place, and a shorthand says what
its long form says. -/
theorem ofRaw_directive_syntax :
    (∀ (s : Spelling) (source : Text) (a : RawAttr), a.name.toList = s.text →
      a.nameSpan.Spells source s.text →
      ∃ d, Attr.ofRaw a = .directive d ∧ d.name.toList = s.name ∧
        d.arg.map DirectiveArg.said = s.arg ∧ d.modifiers = s.modifiers.map String.ofList ∧
        ∀ x ∈ d.arg, x.span.start = a.nameSpan.start + (s.front x.dynamic).size ∧
          x.span.Spells source x.content.toList) ∧
    ∀ short ∈ shorthands, ∀ (t : Text) (a b : RawAttr), a.name.toList = short.1 :: t →
      b.name.toList = 'v' :: '-' :: (short.2.1.toList ++ ':' :: t) →
      ∃ d e, Attr.ofRaw a = .directive d ∧ Attr.ofRaw b = .directive e ∧ d.name = short.2.1 ∧
        e.name = short.2.1 ∧ d.arg.map DirectiveArg.said = e.arg.map DirectiveArg.said ∧
        d.modifiers = e.modifiers ++ short.2.2 := by
  constructor
  · rintro s source a hname ⟨hstop, rest, hat⟩
    have htail : ∀ c ∈ ((s.arg.map argText).getD [] ++ modifierText s.modifiers).head?,
        c = ':' ∨ c = '.' := by
      rcases s.arg with _ | ⟨content, _ | _⟩
      · exact fun c hc => .inr (head?_modifierText s.modifiers c hc)
      · simp [argText, argOpening]
      · simp [argText, argOpening]
    have hhead := head?_long s.name_head s.name_chars htail
    have hoffset : a.nameSpan.stop - Text.size ((s.arg.map argText).getD [] ++ modifierText s.modifiers) =
        a.nameSpan.start + Text.size ('v' :: '-' :: s.name) := by
      rw [hstop, Spelling.text, ← List.cons_append, ← List.cons_append, Text.size_append]
      omega
    simp only [Attr.ofRaw, hname, Spelling.text, hhead, hoffset, s.scanTail_eq]
    refine ⟨_, rfl, by simp, ?_, by simp [splitModifiers_modifierText s.modifier_chars], ?_⟩
    · simp [DirectiveArg.said, Function.comp_def]
    · intro x hx
      obtain ⟨⟨content, dynamic⟩, harg, rfl⟩ := Option.map_eq_some_iff.mp hx
      have hstart : a.nameSpan.start + Text.size ('v' :: '-' :: s.name) + (argOpening dynamic).size =
          a.nameSpan.start + (s.front dynamic).size := by
        rw [Nat.add_assoc, ← Text.size_append]
        rfl
      simp only [Span.Spells, String.toList_ofList, hstart, true_and]
      exact s.at_arg harg hat
  · intro short hshort t a b ha hb
    simp only [shorthands, List.mem_cons, List.not_mem_nil, or_false] at hshort
    rcases hshort with rfl | rfl | rfl | rfl
    all_goals exact ofRaw_shorthand (by rw [ha]; rfl) (by rw [ha]; rfl) hb ⟨_, rfl, rfl⟩ (by simp)

theorem ofRaw_directive_syntax_dynamic :
    let a : RawAttr := ⟨"v-bind:[é].camel", ⟨3, 20⟩, none, ⟨3, 20⟩⟩
    ∃ d, Attr.ofRaw a = .directive d ∧ d.arg.map DirectiveArg.said = some (['é'], true) ∧
      d.modifiers = ["camel"] := by
  intro a
  let s : Spelling :=
    { name := "bind".toList, arg := some (['é'], true), modifiers := ["camel".toList]
      name_head := ⟨'b', rfl, rfl⟩
      name_chars := by simp
      fixed_arg := by simp
      dynamic_arg := by simp
      modifier_chars := by simp }
  have hspan : a.nameSpan.Spells "<a v-bind:[é].camel>".toList s.text :=
    ⟨by decide, ['>'], "<a ".toList, by decide, by decide⟩
  obtain ⟨d, hd, -, harg, hmodifiers, -⟩ := ofRaw_directive_syntax.1 s _ a (by decide) hspan
  exact ⟨d, hd, harg, hmodifiers⟩

end Directive
end SfcTsx.Markup
