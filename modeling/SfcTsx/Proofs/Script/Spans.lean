import SfcTsx.Proofs.Script.Cursor
import SfcTsx.Proofs.Script.Zones

namespace SfcTsx.Script.Tolerant

variable {e : Expr} {i : Nat} {c : Prop} {input : Input}

namespace Input
variable [hl : input.Lined] {i j : Nat}

theorem start_le (hij : i ≤ j) (hj : j ≤ input.last) :
    (input.tokenAt i).span.start ≤ (input.tokenAt j).span.start := by
  induction hij with
  | refl => exact Nat.le_refl _
  | step hij ih =>
    refine Nat.le_trans (ih (Nat.le_of_succ_le hj)) ?_
    exact Nat.le_trans (hl.span_le _) (hl.next_le _ hj)

theorem endBefore_le (hi : i ≤ input.last) : input.endBefore i ≤ (input.tokenAt i).span.start := by
  cases i with
  | zero => exact Nat.zero_le _
  | succ i => exact hl.next_le i hi

theorem endBefore_mono (hij : i ≤ j) (hj : j ≤ input.last) : input.endBefore i ≤ input.endBefore j := by
  rcases Nat.eq_or_lt_of_le hij with rfl | hlt
  · exact Nat.le_refl _
  obtain ⟨j, rfl⟩ : ∃ k, j = k + 1 := ⟨j - 1, by omega⟩
  calc input.endBefore i ≤ (input.tokenAt i).span.start := endBefore_le (by omega)
    _ ≤ (input.tokenAt j).span.start := start_le (by omega) (by omega)
    _ ≤ (input.tokenAt j).span.stop := hl.span_le j

theorem suffix_text (hij : i ≤ j) (hj : j ≤ input.last) : (input.tokenAt j).text.toList <:+
    Span.text ⟨(input.tokenAt i).span.start, (input.tokenAt j).span.stop⟩ input.source := by
  obtain ⟨-, rest, hfirst⟩ := hl.spells i
  obtain ⟨hstop, rest', hlast⟩ := hl.spells j
  obtain ⟨gap, hgap, hstart⟩ := hfirst.between hlast (start_le hij hj)
  rw [hgap, ← List.append_assoc] at hfirst
  have hsize : (input.tokenAt j).span.stop =
      (input.tokenAt i).span.start + Text.size (gap ++ (input.tokenAt j).text.toList) := by
    rw [hstop, hstart, Text.size_append, Nat.add_assoc]
  rw [Span.text, hsize, hfirst.slice]
  exact List.suffix_append _ _

end Input

/-- The tokens from an index up to another lie in the zone, which ends with them. -/
structure Taken (input : Input) (z : Zone) (i j : Nat) : Prop where
  source : z.source = input.source
  le : i ≤ j
  le_last : j ≤ input.last
  start_le : z.start ≤ (input.tokenAt i).span.start
  stop : input.endBefore j = z.stop
  next : (input.tokenAt j).span.start = z.next

variable {k : Prop} {z : Zone} {α β : Type}

namespace Taken

variable {i j n : Nat}

theorem zone [input.Lined] (hij : i ≤ j) (hj : j ≤ input.last) :
    ∃ z : Zone, Taken input z i j ∧ z.start = (input.tokenAt i).span.start :=
  ⟨⟨input.source, (input.tokenAt i).span.start, input.endBefore j, (input.tokenAt j).span.start,
    Input.start_le hij hj, Input.endBefore_le hj⟩, ⟨rfl, hij, hj, Nat.le_refl _, rfl, rfl⟩, rfl⟩

variable (h : Taken input z i n)
include h

theorem first_le : i ≤ input.last := Nat.le_trans h.le h.le_last

variable [input.Lined] (hij : i ≤ j) (hjn : j ≤ n)
include hij hjn

theorem back : Taken input z j n := by
  have hstart := Input.start_le hij (Nat.le_trans hjn h.le_last)
  exact ⟨h.source, hjn, h.le_last, Nat.le_trans h.start_le hstart, h.stop, h.next⟩

theorem split : ∃ w₁ w₂ : Zone, Taken input w₁ i j ∧ Taken input w₂ j n ∧ w₁.Part z ∧ w₂.Part z ∧
    w₁.start = z.start ∧ w₂.start = (input.tokenAt j).span.start ∧ w₁.stop ≤ w₂.start := by
  have hj := Nat.le_trans hjn h.le_last
  have hback := h.back hij hjn
  have hnext : (input.tokenAt j).span.start ≤ z.next := h.next ▸ Input.start_le hjn h.le_last
  have hstop : input.endBefore j ≤ z.stop := h.stop ▸ Input.endBefore_mono hjn h.le_last
  refine ⟨⟨z.source, z.start, input.endBefore j, (input.tokenAt j).span.start, hback.start_le,
    Input.endBefore_le hj⟩, ⟨z.source, (input.tokenAt j).span.start, z.stop, z.next, hnext, z.stop_le⟩,
    ?_, ?_, ?_, ?_, rfl, rfl, Input.endBefore_le hj⟩
  · exact ⟨h.source, hij, hj, h.start_le, rfl, rfl⟩
  · exact ⟨h.source, hjn, h.le_last, Nat.le_refl _, h.stop, h.next⟩
  · exact ⟨rfl, Nat.le_refl _, hstop, hnext⟩
  · exact ⟨rfl, hback.start_le, Nat.le_refl _, Nat.le_refl _⟩

end Taken

/-- The parser moves forward. From what is known of the trees taken before, its own lies in what it
takes. -/
class Keeps (input : Input) (k : Prop) (z : Zone) [Tree α] (p : Parse α) : Prop where
  forward : Forward input p
  lies : k → ∀ i, Taken input z i (p input i).2 → Lies z (p input i).1

/-- The same, if the next token is the given one. -/
structure KeepsAt (input : Input) (k : Prop) (z : Zone) (token : Token) [Tree α] (p : Parse α) : Prop where
  forward : Forward input p
  lies : k → ∀ i, input.tokenAt i = token → Taken input z i (p input i).2 → Lies z (p input i).1

instance (priority := low) Forward.of_keeps [Tree α] {p : Parse α} [h : Keeps input False (.nil 0) p] :
    Forward input p := h.forward

section at_token

variable {token : Token} [Tree α]

theorem KeepsAt.looks_bind {p : Parse β} {f : β → Parse α} (hp : Looks input p)
    (hf : ∀ x, KeepsAt input k z token (f x)) : KeepsAt input k z token (p >>= f) where
  forward := .bind_intro inferInstance fun x => (hf x).forward
  lies hk i hi h := by
    rw [bind_run, hp.eq] at h ⊢
    exact (hf _).lies hk i hi h

theorem KeepsAt.ite_intro [Decidable c] {p q : Parse α} (hp : KeepsAt input k z token p)
    (hq : KeepsAt input k z token q) : KeepsAt input k z token (if c then p else q) := by
  split
  · exact hp
  · exact hq

end at_token

namespace Keeps

variable [Tree α]

theorem at_token {p : Parse α} (h : Keeps input k z p) (token : Token) : KeepsAt input k z token p :=
  ⟨h.forward, fun hk i _ => h.lies hk i⟩

theorem peek_bind {f : Token → Parse α} (h : ∀ token, KeepsAt input k z token (f token)) :
    Keeps input k z (peek >>= f) where
  forward := .bind_intro inferInstance fun token => (h token).forward
  lies hk i := (h _).lies hk i rfl

instance pure {x : α} [h : Within k z x] : Keeps input k z (pure x) := ⟨inferInstance, fun hk _ _ => h.lies hk⟩

theorem ite_intro [Decidable c] {p q : Parse α} (hp : Keeps input k z p)
    (hq : Keeps input k z q) : Keeps input k z (if c then p else q) := by
  split
  · exact hp
  · exact hq

instance ite [Decidable c] {p q : Parse α} [hp : Keeps input k z p] [hq : Keeps input k z q] :
    Keeps input k z (if c then p else q) := ite_intro hp hq

section map

variable [Tree β] {p : Parse β} {g : β → α} [hp : Keeps input k z p]
  [hg : ∀ x, Within (k ∧ Lies z x) z (g x)]

instance map : Keeps input k z (g <$> p) :=
  have := hp.forward
  ⟨inferInstance, fun hk i h => (hg _).lies ⟨hk, hp.lies hk i h⟩⟩

instance (priority := high) bind_pure : Keeps input k z (p >>= fun x => Pure.pure (g x)) :=
  have := hp.forward
  ⟨inferInstance, fun hk i h => (hg _).lies ⟨hk, hp.lies hk i h⟩⟩

end map

instance (priority := high) spanFrom_bind {s : Nat} {f : Span → Parse α} [hl : ∀ t, Looks input (f t)]
    [hf : Keeps input k z (f ⟨s, max z.stop s⟩)] : Keeps input k z (spanFrom s >>= f) where
  forward := inferInstance
  lies hk i h := by
    have hrun : (spanFrom s >>= f) input i = f ⟨s, max (input.endBefore i) s⟩ input i := rfl
    have hstop : input.endBefore i = z.stop := by rw [← h.stop, hrun, (hl _).eq]
    rw [hrun, hstop] at h ⊢
    exact hf.lies hk i h

variable [input.Lined]

theorem startOffset_intro {f : Nat → Parse α} (hf : ∀ z : Zone, Keeps input k z (f z.start)) :
    Keeps input k z (startOffset >>= f) where
  forward := .bind_intro inferInstance fun s => (hf (.nil s)).forward
  lies hk i h := by
    obtain ⟨_, w, _, hw, _, hpart, _, hstart, _⟩ := h.split (Nat.le_refl i) h.le
    have hlies := (hf w).lies hk i
    rw [hstart] at hlies
    exact (hlies hw).mono hpart

instance (priority := high) startOffset_bind {f : Nat → Parse α}
    [hf : ∀ z : Zone, Keeps input k z (f z.start)] : Keeps input k z (startOffset >>= f) := startOffset_intro hf

theorem bind_intro [Tree β] {p : Parse β} {f : β → Parse α} (hp : ∀ z, Keeps input k z p)
    (hf : ∀ x, Keeps input (k ∧ Lies z x) z (f x)) : Keeps input k z (p >>= f) where
  forward := .bind_intro (hp z).forward fun x => (hf x).forward
  lies hk i h := by
    have hle := (hp z).forward.le i h.first_le
    have hle' := (hf (p input i).1).forward.le _ ((hp z).forward.le_last i h.first_le)
    obtain ⟨w, _, htaken, _, hpart, _⟩ := h.split hle hle'
    exact (hf _).lies ⟨hk, ((hp w).lies hk i htaken).mono hpart⟩ _ (h.back hle hle')

instance bind [Tree β] {p : Parse β} {f : β → Parse α} [hp : ∀ z, Keeps input k z p]
    [hf : ∀ x, Keeps input (k ∧ Lies z x) z (f x)] : Keeps input k z (p >>= f) := bind_intro hp hf

theorem bind_any {p : Parse β} {f : β → Parse α} (hp : Forward input p) (hf : ∀ x, Keeps input k z (f x)) :
    Keeps input k z (p >>= f) where
  forward := .bind_intro hp fun x => (hf x).forward
  lies hk i h := by
    have hle' := (hf (p input i).1).forward.le _ (hp.le_last i h.first_le)
    exact (hf _).lies hk _ (h.back (hp.le i h.first_le) hle')

instance (priority := low) bind_forward {p : Parse β} {f : β → Parse α} [hp : Forward input p]
    [hf : ∀ x, Keeps input k z (f x)] : Keeps input k z (p >>= f) := bind_any hp hf

theorem bump_at {token : Token} {c : Unit → Parse α} {kind : TokenKind} (hkind : token.kind = kind)
    (hne : kind ≠ .endOfText) (hc : Keeps input (k ∧ Lies z token.ident) z (c ())) :
    KeepsAt input k z token (discard bump >>= c) where
  forward := .bind_intro inferInstance fun _ => hc.forward
  lies hk i hi h := by
    subst hi
    have hlt := Input.lt_last_of_kind h.first_le hkind hne
    have hrun : (discard bump >>= c) input i = c () input (i + 1) := by
      rw [bind_run, discard_run, bump_snd_of_lt hlt]
    rw [hrun] at h ⊢
    have hle := hc.forward.le (i + 1) hlt
    have hstop : (input.tokenAt i).span.stop ≤ z.stop := h.stop ▸ Input.endBefore_mono hle h.le_last
    have hident : Lies z (input.tokenAt i).ident := by
      refine ⟨trivial, List.forall_mem_singleton.mpr ⟨⟨h.start_le, Input.Lined.span_le i, hstop⟩, ?_⟩,
        List.pairwise_singleton _ _⟩
      rw [h.source]
      exact Input.suffix_text (Nat.le_refl i) (Nat.le_of_lt hlt)
    exact hc.lies ⟨hk, hident⟩ _ (h.back (Nat.le_succ i) hle)

instance repeatFor {stop : Parse Bool} {item : Parse (List α)} [hs : Forward input stop]
    [hitem : ∀ z, Keeps input k z item] (fuel : Nat) : Keeps input k z (repeatFor stop item fuel) where
  forward :=
    have := (hitem z).forward
    inferInstance
  lies hk i h := by
    induction fuel generalizing i z with
    | zero => exact .nil
    | succ fuel ih =>
      have hf := (hitem z).forward
      have hrest : Forward input (Tolerant.repeatFor stop item fuel) := inferInstance
      have hi := hs.le_last i h.first_le
      have hle := hs.le i h.first_le
      simp only [Tolerant.repeatFor, bind_run] at h ⊢
      cases hstop : (stop input i).1 with
      | true =>
        simp only [if_true, pure_run]
        exact .nil
      | false =>
        simp only [hstop, Bool.false_eq_true, if_false, bind_run, pure_run] at h ⊢
        have hle₁ := hf.le _ hi
        have hle₂ := hrest.le _ (hf.le_last _ hi)
        obtain ⟨w₁, w₂, hw₁, hw₂, hpart₁, hpart₂, _, _, hstop⟩ :=
          (h.back hle (Nat.le_trans hle₁ hle₂)).split hle₁ hle₂
        exact .append ((hitem w₁).lies hk _ hw₁) (ih _ hw₂) hpart₁ hpart₂ hstop

instance repeatUntil {stop : Parse Bool} {item : Parse (List α)} [Forward input stop]
    [∀ z, Keeps input k z item] : Keeps input k z (repeatUntil stop item) := by
  unfold Tolerant.repeatUntil
  infer_instance

instance advancing {item : Parse α} [∀ z, Keeps input k z item] : Keeps input k z (advancing item) := by
  unfold Tolerant.advancing
  infer_instance

instance listed {item : Parse (List α)} [∀ z, Keeps input k z item] : Keeps input k z (listed item) := by
  unfold Tolerant.listed
  infer_instance

end Keeps

/-- The parsers of the level move forward, and their trees lie in what they take. -/
class Level.Keeps (input : Input) (up : Level) : Prop where
  stmt (k : Prop) (z : Zone) : Tolerant.Keeps input k z up.stmt
  assign (k : Prop) (z : Zone) : Tolerant.Keeps input k z up.assign
  unary (k : Prop) (z : Zone) : Tolerant.Keeps input k z up.unary
  primary (k : Prop) (z : Zone) : Tolerant.Keeps input k z up.primary
  bindingPat (k : Prop) (z : Zone) : Tolerant.Keeps input k z up.bindingPat

attribute [instance] Level.Keeps.stmt Level.Keeps.assign Level.Keeps.unary Level.Keeps.primary
  Level.Keeps.bindingPat

variable [input.Lined] {up : Level} [up.Keeps input]

section productions

-- Each step of a production takes a few instances.
set_option synthInstance.maxSize 65536

instance Keeps.sequence : Keeps input k z up.sequence := by
  unfold Level.sequence
  infer_instance

instance Keeps.block : Keeps input k z up.block := by
  simp only [Level.block, Level.braced, bind_assoc, pure_bind]
  infer_instance

instance Forward.braced : Forward input up.braced := by
  unfold Level.braced
  infer_instance

instance Forward.blockBody : Forward input up.blockBody := by
  unfold Level.blockBody
  infer_instance

instance Keeps.spreadable : Keeps input k z up.spreadable := by
  unfold Level.spreadable
  infer_instance

instance Keeps.arguments : Keeps input k z up.arguments := by
  unfold Level.arguments
  infer_instance

instance Keeps.indexed {start : Nat} [Within k z e] : Keeps input k z (up.indexed start e) := by
  unfold Level.indexed
  infer_instance

theorem lies_of_taken {j : Nat} (he : (Node.expr e).Within ⟨z.start, input.endBefore i⟩)
    (h : Taken input z i j) : Lies z e := by
  have hstop := Input.endBefore_mono h.le h.le_last
  rw [h.stop] at hstop
  exact .of_tree (he.mono fun _ hs => ⟨hs.start_le, hs.le, Nat.le_trans hs.stop_le hstop⟩) rfl

theorem Keeps.typeArguments?_lies (h : Taken input z i (Level.typeArguments? input i).2) :
    Lies z (Level.typeArguments? input i).1 := by
  simp only [Level.typeArguments?, bind_run, read_run, get_run] at h ⊢
  cases hmatch : input.matchingAngle i true with
  | none => exact .none
  | some close =>
    have hclose := Input.matchingAngle_bounds h.first_le hmatch
    simp only [hmatch] at h ⊢
    by_cases hcall : (input.tokenAt (close + 1)).kind = .openParen
    · simp only [if_pos hcall, bind_run, set_run, pure_run] at h ⊢
      have hle := Nat.le_trans (Input.start_le hclose.1 (Nat.le_of_lt hclose.2)) (Input.Lined.span_le close)
      exact .some (.of_tree ⟨h.start_le, hle, Nat.le_of_eq h.stop⟩ rfl)
    · simp only [if_neg hcall, pure_run]
      exact .none

theorem Forward.typeArguments?_bounds (hi : i ≤ input.last) :
    i ≤ (Level.typeArguments? input i).2 ∧ (Level.typeArguments? input i).2 ≤ input.last := by
  simp only [Level.typeArguments?, bind_run, read_run, get_run]
  cases hmatch : input.matchingAngle i true with
  | none => exact ⟨Nat.le_refl _, hi⟩
  | some close =>
    have := Input.matchingAngle_bounds hi hmatch
    by_cases h : (input.tokenAt (close + 1)).kind = .openParen
    · simp only [if_pos h, bind_run, set_run, pure_run]
      omega
    · simp only [if_neg h, pure_run]
      omega

instance Keeps.typeArguments? : Keeps input k z Level.typeArguments? where
  forward := ⟨fun _ hi => (Forward.typeArguments?_bounds hi).1, fun _ hi => (Forward.typeArguments?_bounds hi).2⟩
  lies _ _ := typeArguments?_lies

instance Keeps.dotted? (optional : Bool) [Within k z e] :
    Keeps input k z (up.dotted? z.start optional e) := by
  unfold Level.dotted?
  infer_instance

instance Forward.dotted? (start : Nat) (optional : Bool) (e : Expr) :
    Forward input (up.dotted? start optional e) :=
  (Keeps.dotted? (k := False) (z := .nil start) optional).forward

instance Keeps.suffix? [Within k z e] : Keeps input k z (up.suffix? z.start e) := by
  unfold Level.suffix?
  refine bind_any inferInstance fun token => ?_
  split
  case h_5 =>
    refine bind_intro inferInstance fun typeArgs => ?_
    cases typeArgs with
    | none => infer_instance
    | some t =>
      have ht : Within (k ∧ Lies z (some t)) z t := ⟨fun hk => hk.2.of_some⟩
      infer_instance
  all_goals infer_instance

instance Forward.suffix? (start : Nat) (e : Expr) : Forward input (up.suffix? start e) :=
  (Keeps.suffix? (k := False) (z := .nil start)).forward

instance Forward.suffixes (start fuel : Nat) (e : Expr) : Forward input (up.suffixes start fuel e) := by
  induction fuel generalizing e with
  | zero =>
    unfold Level.suffixes
    infer_instance
  | succ fuel ih =>
    unfold Level.suffixes
    refine bind_intro inferInstance fun longer => ?_
    split
    · exact ih _
    · infer_instance

/-- A suffix makes an operand longer, and with it the tokens in which it lies. -/
theorem Keeps.suffixes_lies {fuel : Nat} (he : (Node.expr e).Within ⟨z.start, input.endBefore i⟩)
    (h : Taken input z i (up.suffixes z.start fuel e input i).2) :
    Lies z (up.suffixes z.start fuel e input i).1 := by
  induction fuel generalizing e i with
  | zero => exact lies_of_taken he h
  | succ fuel ih =>
    have hforward : Forward input (up.suffix? z.start e) := inferInstance
    simp only [Level.suffixes, bind_run] at h ⊢
    have hle := hforward.le i h.first_le
    have hlast := hforward.le_last i h.first_le
    cases hfound : (up.suffix? z.start e input i).1 with
    | none =>
      simp only [hfound, pure_run] at h ⊢
      exact lies_of_taken he (h.back (Nat.le_refl i) h.le)
    | some longer =>
      simp only [hfound] at h ⊢
      have hrest : Forward input (up.suffixes z.start fuel longer) := inferInstance
      have hle' := hrest.le _ hlast
      obtain ⟨w, _, hw, _, _, _, hstart, _⟩ := h.split hle hle'
      rw [← hstart] at he
      have hwithin : Within True w e := ⟨fun _ => lies_of_taken he hw⟩
      have hsuffix : Keeps input True w (up.suffix? w.start e) := inferInstance
      rw [hstart] at hsuffix
      have hlonger := (hsuffix.lies trivial i hw).tree
      rw [hfound] at hlonger
      refine ih ?_ (h.back hle hle')
      rw [hw.stop, ← hstart]
      exact hlonger longer rfl

instance Keeps.operand : Keeps input k z up.operand := by
  unfold Level.operand
  refine startOffset_intro fun z => ⟨inferInstance, fun hk i h => ?_⟩
  have hprimary (z : Zone) : Keeps input k z up.primary := inferInstance
  simp only [bind_run, read_run, get_run] at h ⊢
  have hle := (hprimary z).forward.le i h.first_le
  have hrest : Forward input (up.suffixes z.start (input.tokens.size - (up.primary input i).2)
    (up.primary input i).1) := inferInstance
  have hle' := hrest.le _ ((hprimary z).forward.le_last i h.first_le)
  obtain ⟨w, _, hw, _, _, _, hstart, _⟩ := h.split hle hle'
  refine suffixes_lies ?_ (h.back hle hle')
  rw [hw.stop, ← hstart]
  exact ((hprimary w).lies hk i hw).tree

instance Forward.decorators : Forward input up.decorators := by
  unfold Level.decorators
  infer_instance

theorem Keeps.hashKey {token : Token} (hkind : token.kind = .hash) : KeepsAt input k z token (do
      discard bump
      let name ← bump
      return some (PropKey.ident ⟨← spanFrom token.span.start, name.text⟩)) where
  forward := inferInstance
  lies hk i hi h := by
    subst hi
    have hlt := Input.lt_last_of_kind h.first_le hkind nofun
    simp only [bind_run, discard_run, bump_snd_of_lt hlt, bump_run (i + 1), spanFrom_run, pure_run] at h ⊢
    generalize hj : (if (input.tokenAt (i + 1)).kind = .endOfText then i + 1 else i + 1 + 1) = j at h
    have hij : i + 1 ≤ j := by
      rw [← hj]
      split <;> omega
    have hstart := Nat.le_trans (Input.Lined.span_le i) (Input.endBefore_mono hij h.le_last)
    simp only [Nat.max_eq_left hstart]
    have hident : Lies z (Ident.mk ⟨(input.tokenAt i).span.start, input.endBefore j⟩
        (input.tokenAt (i + 1)).text) := by
      refine ⟨trivial, List.forall_mem_singleton.mpr ⟨⟨h.start_le, hstart, Nat.le_of_eq h.stop⟩, ?_⟩,
        List.pairwise_singleton _ _⟩
      by_cases hend : (input.tokenAt (i + 1)).kind = .endOfText
      · have hlast := (Input.Lined.kind_iff (i + 1) hlt).mp hend
        rw [hlast, Input.Lined.text_last]
        exact List.nil_suffix
      · obtain rfl : i + 1 + 1 = j := by rw [← hj, if_neg hend]
        rw [h.source]
        exact Input.suffix_text (Nat.le_succ i) hlt
    exact .some (hident.of_names nofun rfl)

instance Keeps.propKey? : Keeps input k z up.propKey? := by
  unfold Level.propKey?
  refine peek_bind fun token => ?_
  split
  case h_1 hkind => exact bump_at hkind nofun inferInstance
  case h_2 hkind => exact hashKey hkind
  all_goals exact at_token inferInstance token

instance Forward.patType : Forward input Level.patType := by
  unfold Level.patType
  infer_instance

instance Keeps.patWithDefault : Keeps input k z up.patWithDefault := by
  unfold Level.patWithDefault
  infer_instance

instance Keeps.patProp? : Keeps input k z up.patProp? := by
  unfold Level.patProp?
  dsimp only
  refine startOffset_intro fun z => bind_any inferInstance fun spread => ?_
  refine ite_intro inferInstance (bind_intro inferInstance fun key? => ?_)
  cases key? with
  | none => infer_instance
  | some key =>
    have hkey : Within (k ∧ Lies z (some key)) z key := ⟨fun hk => hk.2.of_some⟩
    refine bind_any inferInstance fun colon => ite_intro inferInstance ?_
    split
    · have hname := hkey.of_keyIdent
      infer_instance
    · infer_instance

instance Keeps.objectPat (start : Nat) : Keeps input k z (up.objectPat start) := by
  unfold Level.objectPat
  infer_instance

instance Keeps.elements [Tree α] {item : Parse α} [∀ z, Keeps input k z item] :
    Keeps input k z (Level.elements item) := by
  unfold Level.elements
  infer_instance

instance Forward.elements {item : Parse α} [Forward input item] : Forward input (Level.elements item) := by
  unfold Level.elements
  infer_instance

instance Keeps.arrayPat (start : Nat) : Keeps input k z (up.arrayPat start) := by
  unfold Level.arrayPat
  infer_instance

instance Keeps.pattern : Keeps input k z up.pattern := by
  unfold Level.pattern
  refine peek_bind fun token => ?_
  split
  case h_1 hkind => exact bump_at hkind nofun inferInstance
  all_goals exact at_token inferInstance token

instance Forward.skipParamModifiers : Forward input Level.skipParamModifiers := by
  unfold Level.skipParamModifiers
  infer_instance

instance Keeps.params : Keeps input k z up.params := by
  unfold Level.params
  infer_instance

instance Keeps.functionTail (ident : Option Ident) (isAsync : Bool) :
    Keeps input k z (up.functionTail z.start ident isAsync) := by
  unfold Level.functionTail
  simp -zeta only [ite_bind_join, ite_bind_unit]
  dsimp only
  infer_instance

instance Forward.functionTail (start : Nat) (ident : Option Ident) (isAsync : Bool) :
    Forward input (up.functionTail start ident isAsync) :=
  (Keeps.functionTail (k := False) (z := .nil start) ident isAsync).forward

instance Keeps.function : Keeps input k z up.function := by
  unfold Level.function
  infer_instance

instance Forward.skipMemberModifiers : Forward input Level.skipMemberModifiers := by
  unfold Level.skipMemberModifiers
  infer_instance

instance Keeps.classMember : Keeps input k z up.classMember := by
  unfold Level.classMember
  simp -zeta only [ite_bind_join, ite_bind_unit]
  dsimp only
  infer_instance

instance Keeps.classBody : Keeps input k z up.classBody := by
  unfold Level.classBody
  infer_instance

instance Keeps.classDecl : Keeps input k z up.classDecl := by
  unfold Level.classDecl
  simp -zeta only [ite_bind_join, ite_bind_unit]
  dsimp only
  infer_instance

instance Forward.skipUntil (kinds : List TokenKind) : Forward input (skipUntil kinds) := by
  unfold Tolerant.skipUntil
  infer_instance

instance Forward.skipOpeningTag : Forward input skipOpeningTag := by
  unfold Tolerant.skipOpeningTag
  infer_instance

instance Forward.skipMarkup (fuel depth : Nat) : Forward input (skipMarkup fuel depth) := by
  induction fuel generalizing depth with
  | zero =>
    unfold Tolerant.skipMarkup
    infer_instance
  | succ fuel ih =>
    unfold Tolerant.skipMarkup
    refine bind_intro inferInstance fun token => ?_
    split <;> infer_instance

instance Keeps.arrayLit : Keeps input k z up.arrayLit := by
  unfold Level.arrayLit
  infer_instance

instance Keeps.objectProp? : Keeps input k z up.objectProp? := by
  unfold Level.objectProp?
  simp -zeta only [ite_bind_unit]
  dsimp only
  refine startOffset_intro fun z => bind_any inferInstance fun spread => ?_
  refine ite_intro inferInstance (bind_any inferInstance fun token => bind_any inferInstance fun next => ?_)
  refine bind_any inferInstance fun _ => bind_any inferInstance fun _ => ?_
  refine bind_intro inferInstance fun key? => ?_
  cases key? with
  | none => infer_instance
  | some key =>
    have hkey : Within (k ∧ Lies z (some key)) z key := ⟨fun hk => hk.2.of_some⟩
    refine bind_any inferInstance fun colon => ite_intro inferInstance ?_
    refine bind_any inferInstance fun token => ite_intro inferInstance ?_
    split <;> infer_instance

instance Keeps.objectLit : Keeps input k z up.objectLit := by
  unfold Level.objectLit
  infer_instance

theorem Keeps.wordPrimary {token : Token} (hkind : token.kind = .word) :
    KeepsAt input k z token (up.wordPrimary token) := by
  unfold Level.wordPrimary
  refine .looks_bind inferInstance fun next => ?_
  dsimp only
  split
  case h_6 =>
    refine .ite_intro (at_token inferInstance token) (.ite_intro (at_token inferInstance token) ?_)
    exact bump_at hkind nofun inferInstance
  all_goals exact at_token inferInstance token

instance Forward.wordPrimary (token : Token) : Forward input (up.wordPrimary token) := by
  unfold Level.wordPrimary
  refine bind_intro inferInstance fun next => ?_
  dsimp only
  split <;> infer_instance

instance Keeps.primaryExpr : Keeps input k z up.primaryExpr := by
  unfold Level.primaryExpr
  refine peek_bind fun token => ?_
  split
  case h_1 hkind => exact wordPrimary hkind
  case h_9 hkind => exact bump_at hkind nofun inferInstance
  all_goals exact at_token inferInstance token

instance Keeps.unaryExpr : Keeps input k z up.unaryExpr := by
  unfold Level.unaryExpr
  refine bind_any inferInstance fun token => ?_
  split <;> infer_instance

instance Keeps.binaryRest (start fuel : Nat) [h : Within k z e] :
    Keeps input k z (up.binaryRest start fuel e) := by
  induction fuel generalizing k e with
  | zero =>
    unfold Level.binaryRest
    infer_instance
  | succ fuel ih =>
    unfold Level.binaryRest
    infer_instance

instance Keeps.binary : Keeps input k z up.binary := by
  unfold Level.binary
  infer_instance

instance Keeps.conditional : Keeps input k z up.conditional := by
  unfold Level.conditional
  infer_instance

instance Forward.arrowParams : Forward input up.arrowParams := by
  unfold Level.arrowParams
  infer_instance

instance Keeps.arrow (isAsync : Bool) : Keeps input k z (up.arrow isAsync) := by
  unfold Level.arrow
  infer_instance

instance Keeps.assignExpr : Keeps input k z up.assignExpr := by
  unfold Level.assignExpr
  infer_instance

instance Forward.moduleName : Forward input moduleName := by
  unfold Tolerant.moduleName
  infer_instance

instance Forward.isAtTypeModifier : Forward input isAtTypeModifier := by
  unfold Tolerant.isAtTypeModifier
  infer_instance

instance Forward.specifierName? : Forward input specifierName? := by
  unfold Tolerant.specifierName?
  infer_instance

instance Forward.importSpecifier? : Forward input importSpecifier? := by
  unfold Tolerant.importSpecifier?
  refine bind_intro inferInstance fun start => bind_intro inferInstance fun name => ?_
  split <;> infer_instance

instance Forward.exportSpecifier? : Forward input exportSpecifier? := by
  unfold Tolerant.exportSpecifier?
  refine bind_intro inferInstance fun start => bind_intro inferInstance fun name => ?_
  split <;> infer_instance

instance Forward.specifiers {item : Parse (Option α)} [Forward input item] : Forward input (specifiers item) := by
  unfold Tolerant.specifiers
  infer_instance

instance Forward.starSpecifier : Forward input starSpecifier := by
  unfold Tolerant.starSpecifier
  infer_instance

instance Forward.skipImportAttributes : Forward input skipImportAttributes := by
  unfold Tolerant.skipImportAttributes
  infer_instance

instance Keeps.importStmt : Keeps input k z importStmt := by
  unfold Tolerant.importStmt
  simp -zeta only [ite_bind_join, ite_bind_unit]
  dsimp only
  infer_instance

instance Forward.fromClause? : Forward input fromClause? := by
  unfold Tolerant.fromClause?
  infer_instance

instance Keeps.exportStar (typeOnly : Bool) : Keeps input k z (exportStar z.start typeOnly) := by
  unfold Tolerant.exportStar
  dsimp only
  refine bind_any inferInstance fun _ => bind_any inferInstance fun named => ?_
  refine ite_intro inferInstance (bind_any inferInstance fun source => ?_)
  split <;> infer_instance

instance Forward.exportStar (start : Nat) (typeOnly : Bool) : Forward input (exportStar start typeOnly) :=
  (Keeps.exportStar (k := False) (z := .nil start) typeOnly).forward

instance Keeps.enumStmt : Keeps input k z enumStmt := by
  unfold Tolerant.enumStmt
  infer_instance

instance Keeps.typeAlias : Keeps input k z typeAlias := by
  unfold Tolerant.typeAlias
  infer_instance

instance Keeps.interfaceStmt : Keeps input k z interfaceStmt := by
  unfold Tolerant.interfaceStmt
  infer_instance

instance Keeps.defaultExport : Keeps input k z up.defaultExport := by
  unfold Level.defaultExport
  infer_instance

instance Keeps.exportStmt : Keeps input k z up.exportStmt := by
  unfold Level.exportStmt
  infer_instance

instance Keeps.declarator : Keeps input k z up.declarator := by
  unfold Level.declarator
  infer_instance

instance Forward.declarators (fuel : Nat) : Forward input (up.declarators fuel) := by
  induction fuel with
  | zero =>
    unfold Level.declarators
    infer_instance
  | succ fuel ih =>
    unfold Level.declarators
    infer_instance

instance Keeps.declarators (fuel : Nat) : Keeps input k z (up.declarators fuel) where
  forward := inferInstance
  lies hk i h := by
    induction fuel generalizing i z with
    | zero => exact .nil
    | succ fuel ih =>
      have hdecl (z : Zone) : Keeps input k z up.declarator := inferInstance
      have heat : Forward input (eat .comma) := inferInstance
      have hrest : Forward input (up.declarators fuel) := inferInstance
      have hle := (hdecl z).forward.le i h.first_le
      have hlast := (hdecl z).forward.le_last i h.first_le
      have hcomma := heat.le _ hlast
      have hcomma' := heat.le_last _ hlast
      simp only [Level.declarators, bind_run, get_run] at h ⊢
      by_cases hsame : (up.declarator input i).2 = i
      · simp only [if_pos hsame, pure_run] at h ⊢
        exact ((hdecl z).lies hk i h).singleton
      simp only [if_neg hsame, bind_run] at h ⊢
      cases hfound : (eat .comma input (up.declarator input i).2).1 with
      | false =>
        simp only [hfound, Bool.false_eq_true, if_false, pure_run] at h ⊢
        obtain ⟨w, _, hw, _, hpart, _⟩ := h.split hle hcomma
        exact (((hdecl w).lies hk i hw).mono hpart).singleton
      | true =>
        simp only [hfound, if_true, bind_run, pure_run] at h ⊢
        have hend := hrest.le _ hcomma'
        obtain ⟨w₁, w₂, hw₁, hw₂, hpart₁, hpart₂, _, _, hstop⟩ :=
          h.split hle (Nat.le_trans hcomma hend)
        exact ((hdecl w₁).lies hk i hw₁).singleton.append (ih _ (hw₂.back hcomma hend)) hpart₁ hpart₂ hstop

instance Keeps.varStmt : Keeps input k z up.varStmt := by
  unfold Level.varStmt
  infer_instance

instance Keeps.declareStmt : Keeps input k z up.declareStmt := by
  unfold Level.declareStmt
  infer_instance

instance Keeps.namespaceStmt : Keeps input k z up.namespaceStmt := by
  unfold Level.namespaceStmt
  infer_instance

instance Keeps.ifStmt : Keeps input k z up.ifStmt := by
  unfold Level.ifStmt
  infer_instance

instance Keeps.returnStmt : Keeps input k z up.returnStmt := by
  unfold Level.returnStmt
  infer_instance

instance Keeps.headExprs : Keeps input k z up.headExprs := by
  unfold Level.headExprs
  infer_instance

instance Forward.blocks : Forward input up.blocks := by
  unfold Level.blocks
  infer_instance

instance Forward.tryBlocks : Forward input up.tryBlocks := by
  unfold Level.tryBlocks
  infer_instance

instance Keeps.keywordParts (keyword : String) : Keeps input k z (up.keywordParts keyword) := by
  unfold Level.keywordParts
  split <;> infer_instance

instance Keeps.keywordStmt : Keeps input k z up.keywordStmt := by
  unfold Level.keywordStmt
  refine startOffset_intro fun z => bind_any inferInstance fun keyword => bind_intro inferInstance fun parts => ?_
  have hexprs : Within (k ∧ Lies z parts) z parts.2 := ⟨fun hk => hk.2.of_names hk.2.tree rfl⟩
  infer_instance

instance Keeps.exprStmt : Keeps input k z up.exprStmt := by
  unfold Level.exprStmt
  infer_instance

instance Keeps.classStmt : Keeps input k z up.classStmt := by
  unfold Level.classStmt
  infer_instance

instance Keeps.wordStmt (token : Token) : Keeps input k z (up.wordStmt token) := by
  unfold Level.wordStmt
  infer_instance

instance Keeps.decoratedStmt : Keeps input k z up.decoratedStmt := by
  unfold Level.decoratedStmt
  refine startOffset_intro fun z => bind_any inferInstance fun _ => bind_intro inferInstance fun stmt => ?_
  split
  · rename_i span ident members
    have hmembers : Within (k ∧ Lies z (Stmt.classDecl span ident members)) z members := Within.last.members
    infer_instance
  · infer_instance

instance Keeps.statement : Keeps input k z up.statement := by
  unfold Level.statement
  refine peek_bind fun token => ?_
  split
  case h_1 hkind => exact bump_at hkind nofun inferInstance
  case h_2 hkind => exact bump_at hkind nofun inferInstance
  case h_3 hkind => exact bump_at hkind nofun inferInstance
  case h_4 hkind => exact bump_at hkind nofun inferInstance
  all_goals exact at_token inferInstance token

end productions

namespace Level.Keeps

instance bottom : Level.bottom.Keeps input where
  stmt k z := by
    unfold Level.bottom
    infer_instance
  assign k z := by
    unfold Level.bottom
    infer_instance
  unary k z := by
    unfold Level.bottom
    infer_instance
  primary k z := by
    unfold Level.bottom
    infer_instance
  bindingPat k z := by
    unfold Level.bottom
    infer_instance

instance level (depth : Nat) : (level depth).Keeps input := by
  induction depth with
  | zero => exact bottom
  | succ depth ih =>
    exact ⟨fun _ _ => .statement, fun _ _ => .assignExpr, fun _ _ => .unaryExpr, fun _ _ => .primaryExpr,
      fun _ _ => .pattern⟩

end Level.Keeps

instance Keeps.stmts : Keeps input k z stmts := by
  unfold Tolerant.stmts
  infer_instance

end SfcTsx.Script.Tolerant
