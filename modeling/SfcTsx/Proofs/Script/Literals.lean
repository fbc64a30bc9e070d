import SfcTsx.Proofs.Text
import SfcTsx.Script.Token

namespace SfcTsx
namespace Text

variable {c : Char}

theorem drop_byteChars {source t : Text} {offset : Nat} (h : source.At offset t) :
    source.byteChars.drop offset = t.byteChars := by
  obtain ⟨front, rfl, rfl⟩ := h
  simp [byteChars]

@[simp] theorem length_byteChars (t : Text) : (byteChars t).length = size t := by
  simp [byteChars]

theorem utf8Size_of_lt (h : c.toNat < 128) : c.utf8Size = 1 :=
  Char.utf8Size_eq_one_iff.mpr (UInt32.le_iff_toNat_le.mpr (Nat.le_of_lt_succ h))

theorem toNat_ofUInt8 (b : UInt8) : (Char.ofUInt8 b).toNat = b.toNat := UInt8.toNat_toUInt32 b

theorem map_ofUInt8_encode (h : c.toNat < 128) :
    (String.utf8EncodeChar c).map Char.ofUInt8 = [c] := by
  have hle : c.val.toNat ≤ 127 := Nat.le_of_lt_succ h
  rw [String.utf8EncodeChar, if_pos hle, List.map_singleton]
  refine congrArg (fun d => [d]) (Char.ext (UInt32.toNat_inj.mp ?_))
  have hbyte := toNat_ofUInt8 (UInt8.ofNat c.val.toNat)
  rw [UInt8.toNat_ofNat', Nat.mod_eq_of_lt (by omega)] at hbyte
  exact hbyte

theorem le_of_mem_encode (h : 128 ≤ c.toNat) {b : UInt8} (hb : b ∈ String.utf8EncodeChar c) :
    128 ≤ (Char.ofUInt8 b).toNat := by
  have hgt : ¬ c.val.toNat ≤ 127 := Nat.not_le_of_lt h
  have hbyte {v : Nat} (hle : 128 ≤ v) (hlt : v < 256) :
      128 ≤ (Char.ofUInt8 (UInt8.ofNat v)).toNat := by
    rw [toNat_ofUInt8, UInt8.toNat_ofNat', Nat.mod_eq_of_lt hlt]
    exact hle
  simp only [String.utf8EncodeChar, hgt, if_false] at hb
  split at hb
  · simp only [List.mem_cons, List.not_mem_nil, or_false] at hb
    rcases hb with rfl | rfl <;> exact hbyte (by omega) (by omega)
  split at hb
  · simp only [List.mem_cons, List.not_mem_nil, or_false] at hb
    rcases hb with rfl | rfl | rfl <;> exact hbyte (by omega) (by omega)
  · simp only [List.mem_cons, List.not_mem_nil, or_false] at hb
    rcases hb with rfl | rfl | rfl | rfl <;> exact hbyte (by omega) (by omega)

def High (hs : Text) : Prop := ∀ c ∈ hs, 128 ≤ c.toNat

/-- The first byte of a character stands for it in ASCII, and the bytes behind it are high. -/
structure Begins (c d : Char) (hs : Text) : Prop where
  ascii : c.toNat < 128 → d = c
  high : 128 ≤ c.toNat → 128 ≤ d.toNat
  rest : High hs
  size : c.utf8Size = 1 + hs.length

theorem byteChars_cons (c : Char) (cs : Text) :
    byteChars (c :: cs) = (String.utf8EncodeChar c).map Char.ofUInt8 ++ byteChars cs := by
  simp [byteChars, bytes]

theorem byteChars_ascii (h : c.toNat < 128) (cs : Text) : byteChars (c :: cs) = c :: byteChars cs := by
  rw [byteChars_cons, map_ofUInt8_encode h, List.singleton_append]

theorem exists_byteChars (c : Char) (cs : Text) :
    ∃ d hs, byteChars (c :: cs) = d :: (hs ++ byteChars cs) ∧ Begins c d hs := by
  have hcons := byteChars_cons c cs
  have hlen := String.length_utf8EncodeChar c
  by_cases hc : c.toNat < 128
  · rw [map_ofUInt8_encode hc] at hcons
    exact ⟨c, [], hcons, fun _ => rfl, id, by simp [High], by simp [utf8Size_of_lt hc]⟩
  · have hhigh {b : UInt8} := le_of_mem_encode (c := c) (b := b) (Nat.le_of_not_lt hc)
    cases hbytes : String.utf8EncodeChar c with
    | nil =>
      rw [hbytes] at hlen
      exact absurd hlen (Nat.ne_of_lt c.utf8Size_pos)
    | cons b bs =>
      simp only [hbytes, List.mem_cons] at hhigh
      rw [hbytes] at hcons hlen
      refine ⟨_, bs.map Char.ofUInt8, hcons, fun h => absurd h hc, fun _ => hhigh (.inl rfl), ?_, ?_⟩
      · intro e he
        obtain ⟨b', hb', rfl⟩ := List.mem_map.mp he
        exact hhigh (.inr hb')
      · rw [List.length_map, ← hlen, List.length_cons, Nat.add_comm]

theorem Begins.eq_iff {d k : Char} {hs : Text} (h : Begins c d hs) (hk : k.toNat < 128) :
    d = k ↔ c = k := by
  by_cases hc : c.toNat < 128
  · rw [h.ascii hc]
  · have hd := h.high (Nat.le_of_not_lt hc)
    constructor <;> rintro rfl <;> omega

end Text

namespace Script.Token
open Text (Begins High byteChars)

variable {c d : Char} {cs hs : Text} {f : Text → Option Nat}

/-- A scanner that goes on behind every high byte. -/
def Passes (f : Text → Option Nat) : Prop :=
  ∀ c cs, 128 ≤ c.toNat → f (c :: cs) = (f cs).map (· + 1)

theorem Passes.run (hf : Passes f) (h : High hs) (cs : Text) :
    f (hs ++ cs) = (f cs).map (· + hs.length) := by
  induction hs with
  | nil => simp
  | cons c hs ih =>
    obtain ⟨hc, hhs⟩ := List.forall_mem_cons.mp h
    rw [List.cons_append, hf c _ hc, ih hhs, Option.map_map]
    rfl

/-- The scanner of the bytes ends where that of the characters does. -/
def Agrees (f : Text → Option Nat) (cs : Text) : Prop :=
  f (byteChars cs) = (f cs).map fun n => Text.size (cs.take n)

section agree
variable {g : Text → Option Nat} (h : Agrees g cs)
include h

theorem Agrees.next (hg : 128 ≤ c.toNat → Passes g)
    (hf : ∀ d, (∀ k : Char, k.toNat < 128 → (d = k ↔ c = k)) → ∀ rest,
      f (d :: rest) = (g rest).map (· + 1)) : Agrees f (c :: cs) := by
  obtain ⟨d, hs, hbytes, hd⟩ := Text.exists_byteChars c cs
  have hrun : g (hs ++ byteChars cs) = (g (byteChars cs)).map (· + hs.length) := by
    by_cases hc : c.toNat < 128
    · have hnil : hs.length = 0 := by
        have hsize := hd.size
        rw [Text.utf8Size_of_lt hc] at hsize
        omega
      simp [List.length_eq_zero_iff.mp hnil]
    · exact (hg (Nat.le_of_not_lt hc)).run hd.rest _
  rw [Agrees, hbytes, hf d (fun _ => hd.eq_iff), hf c (fun _ _ => Iff.rfl), hrun, h]
  cases g cs with
  | none => rfl
  | some n =>
    simp only [Option.map_some, List.take_succ_cons, Text.size_cons, hd.size, Option.some.injEq]
    omega

theorem Agrees.ascii (hc : c.toNat < 128) (hf : ∀ rest, f (c :: rest) = (g rest).map (· + 1)) :
    Agrees f (c :: cs) :=
  h.next (fun hle => absurd hc (Nat.not_lt_of_le hle)) fun d hd rest => by rw [(hd c hc).mpr rfl, hf]

theorem Agrees.escaped (hg : Passes g)
    (hf : ∀ d rest, f ('\\' :: d :: rest) = (g rest).map (· + 2)) : Agrees f ('\\' :: c :: cs) := by
  obtain ⟨d, hs, hbytes, hd⟩ := Text.exists_byteChars c cs
  have hone : ('\\' : Char).utf8Size = 1 := rfl
  rw [Agrees, Text.byteChars_ascii (by decide), hbytes, hf, hf, hg.run hd.rest, h]
  cases g cs with
  | none => rfl
  | some n =>
    simp only [Option.map_some, List.take_succ_cons, Text.size_cons, hd.size, hone, Option.some.injEq]
    omega

end agree

theorem ne_of_high {k : Char} (hk : k.toNat < 128) (hc : 128 ≤ c.toNat) : c ≠ k := fun h => by
  rw [h] at hc
  omega

theorem runLength_byteChars (cs : Text) : runLength Char.isAlpha (byteChars cs) =
    Text.size (cs.take (runLength Char.isAlpha cs)) := by
  induction cs with
  | nil => rfl
  | cons c cs ih =>
    have hlt {e : Char} (he : e.isAlpha = true) : e.toNat < 128 := by
      have := Text.toNat_of_isAlpha he
      omega
    by_cases halpha : c.isAlpha = true
    · rw [Text.byteChars_ascii (hlt halpha)]
      simp [runLength, halpha, ih, Text.utf8Size_of_lt (hlt halpha)]
      omega
    · obtain ⟨d, hs, hbytes, hd⟩ := Text.exists_byteChars c cs
      have hnot : ¬ d.isAlpha = true := fun he => by
        by_cases hc : c.toNat < 128
        · exact halpha (hd.ascii hc ▸ he)
        · exact absurd (hlt he) (Nat.not_lt_of_le (hd.high (Nat.le_of_not_lt hc)))
      simp [hbytes, runLength, halpha, hnot]

theorem passes_regexLength (inClass : Bool) : Passes (regexLength inClass) := by
  intro c cs hc
  rw [regexLength.eq_def]
  simp (disch := decide) [ne_of_high _ hc]

theorem regexLength_agrees (inClass : Bool) (cs : Text) : Agrees (regexLength inClass) cs := by
  have hpass := passes_regexLength
  fun_induction regexLength inClass cs with
  | case1 | case2 => rfl
  | case3 inClass d rest ih => exact ih.escaped (hpass inClass) fun _ _ => rfl
  | case4 inClass cs =>
    rw [Agrees, Text.byteChars_ascii (by decide), regexLength.eq_def, regexLength.eq_def _ ('\n' :: cs)]
    simp
  | case7 inClass c cs _ _ _ _ hslash =>
    obtain ⟨rfl, rfl⟩ : c = '/' ∧ inClass = false := by simpa using hslash
    have hend (rest : Text) :
        regexLength false ('/' :: rest) = some (1 + runLength Char.isAlpha rest) := by
      rw [regexLength.eq_def]
      simp
    rw [Agrees, Text.byteChars_ascii (by decide), hend, hend, runLength_byteChars, Option.map_some,
      Nat.add_comm 1 (runLength Char.isAlpha cs), List.take_succ_cons]
    rfl
  | case5 _ _ _ _ ih | case6 _ _ _ _ _ ih | case8 _ _ _ _ _ _ _ _ ih =>
    refine ih.next (fun _ => hpass _) fun d hd rest => ?_
    rw [regexLength.eq_def]
    simp (disch := decide) [*]

/-- The strings in code are open with quotes in ASCII. -/
def AsciiQuotes (ns : List Nesting) : Prop := ∀ quote, .quoted quote ∈ ns → quote.toNat < 128

theorem passes_templateLength {state : Nesting} {outer : List Nesting}
    (hns : AsciiQuotes (state :: outer)) (hstate : state ≠ .chars true) :
    Passes (templateLength (state :: outer)) := by
  intro c cs hc
  rw [templateLength.eq_def]
  cases state with
  | chars dollar =>
    obtain rfl : dollar = false := by simpa using hstate
    have hdollar : (c == '$') = false := by simpa using ne_of_high (by decide) hc
    simp (disch := decide) [ne_of_high _ hc, hdollar]
  | code braces => simp (disch := decide) [ne_of_high _ hc]
  | quoted quote => simp (disch := decide) [ne_of_high _ hc, ne_of_high (hns quote (.head _)) hc]

theorem templateLength_agrees {ns : List Nesting} (hns : AsciiQuotes ns) (cs : Text) :
    Agrees (templateLength ns) cs := by
  fun_induction templateLength ns cs with
  | case1 => simp [Agrees, templateLength]
  | case2 | case3 => rfl
  | case4 dollar outer d rest ih =>
    have hns' : AsciiQuotes (.chars false :: outer) := by simpa [AsciiQuotes] using hns
    exact (ih hns').escaped (passes_templateLength hns' (by simp)) fun _ _ => rfl
  | case15 quote outer hne =>
    have hquote : '\\' ≠ quote := by simpa using hne
    have hone : byteChars ['\\'] = ['\\'] := rfl
    simp [Agrees, hone, templateLength, hquote]
  | case16 quote outer d rest hne ih =>
    have hquote : '\\' ≠ quote := by simpa using hne
    exact (ih hns).escaped (passes_templateLength hns nofun) fun _ _ => by simp [templateLength, hquote]
  | case7 dollar outer c cs hback htick hbrace ih =>
    have hns' : AsciiQuotes (.chars (c == '$') :: outer) := by simpa [AsciiQuotes] using hns
    refine (ih hns').next (fun hc => passes_templateLength hns' ?_) fun d hd rest => ?_
    · simpa using ne_of_high (by decide) hc
    · have hdollar : (d == '$') = (c == '$') := by
        rw [Bool.eq_iff_iff, beq_iff_eq, beq_iff_eq, hd _ (by decide)]
      rw [templateLength.eq_def]
      simp (disch := decide) [*]
  | case13 _ _ _ _ _ _ _ _ ih =>
    refine (ih hns).next (fun _ => passes_templateLength hns nofun) fun d hd rest => ?_
    rw [templateLength.eq_def]
    simp (disch := decide) [*]
  | case17 quote _ _ _ _ _ ih =>
    have hquote := hns quote (.head _)
    refine (ih hns).next (fun _ => passes_templateLength hns nofun) fun d hd rest => ?_
    rw [templateLength.eq_def]
    simp (disch := first | assumption | decide) [*]
  | case12 braces outer c cs hopen hclose htick hquote ih =>
    have hlt : c.toNat < 128 := by
      simp only [Bool.or_eq_true, decide_eq_true_eq] at hquote
      rcases hquote with rfl | rfl <;> decide
    refine (ih (by simpa [AsciiQuotes, hlt] using hns)).ascii hlt fun rest => ?_
    rw [templateLength.eq_def]
    simp [*]
  | case14 quote outer c cs hstop ih =>
    have hlt : c.toNat < 128 := by
      simp only [Bool.or_eq_true, decide_eq_true_eq] at hstop
      rcases hstop with rfl | rfl
      · exact hns c (.head _)
      · decide
    refine (ih fun q hq => hns q (.tail _ hq)).ascii hlt fun rest => ?_
    rw [templateLength.eq_def]
    simp [*]
  | case6 dollar outer c cs _ _ hbrace ih =>
    obtain ⟨rfl, rfl⟩ : c = '\x7b' ∧ dollar = true := by simpa using hbrace
    refine (ih (by simpa [AsciiQuotes] using hns)).ascii (by decide) fun rest => ?_
    rw [templateLength.eq_def]
    simp
  | case5 _ _ _ _ ih | case8 _ _ _ ih | case9 _ _ _ ih | case10 _ _ _ _ ih | case11 _ _ _ _ _ ih =>
    refine (ih (by simpa [AsciiQuotes] using hns)).ascii (by decide) fun rest => ?_
    rw [templateLength.eq_def]
    simp

def closedLength (quote : Char) (cs : Text) : Option Nat :=
  if (stringLength quote cs).2 then some (stringLength quote cs).1 else none

theorem closedLength_cons (quote c : Char) (cs : Text) : closedLength quote (c :: cs) =
    if c = quote then some 1
    else if c = '\n' then none
    else if c = '\\' then cs.head?.bind fun _ => (closedLength quote cs.tail).map (· + 2)
    else (closedLength quote cs).map (· + 1) := by
  unfold closedLength
  rw [stringLength.eq_def]
  cases cs <;> grind

theorem closedLength_agrees {quote : Char} (hquote : quote.toNat < 128) (cs : Text) :
    Agrees (closedLength quote) cs := by
  have hpass : Passes (closedLength quote) := fun c cs hc => by
    simp (disch := decide) [closedLength_cons, ne_of_high _ hc, ne_of_high hquote hc]
  fun_induction stringLength quote cs with
  | case1 => rfl
  | case2 cs =>
    rw [Agrees, Text.byteChars_ascii hquote]
    simp [closedLength_cons, Text.utf8Size_of_lt hquote]
  | case3 cs hne =>
    rw [Agrees, Text.byteChars_ascii (by decide)]
    simp [closedLength_cons, hne]
  | case4 hne =>
    have hone : byteChars ['\\'] = ['\\'] := rfl
    simp [Agrees, hone, closedLength_cons, hne]
  | case5 d rest _ _ _ hne _ ih => exact ih.escaped hpass fun _ _ => by simp [closedLength_cons, hne]
  | case6 c cs hne hline hback _ _ _ ih =>
    refine ih.next (fun _ => hpass) fun d hd rest => ?_
    simp (disch := first | assumption | decide) [closedLength_cons, *]

theorem lengthIn_size_take (n : Nat) (cs : Text) :
    lengthIn (Text.size (cs.take n)) cs = (cs.take n).length := by
  have htake := Text.take?_size_append (cs.take n) (cs.drop n)
  rw [List.take_append_drop] at htake
  rw [lengthIn, htake, Option.getD_some]

theorem templateEnd_byteChars (cs : Text) :
    templateEnd (byteChars cs) = Text.size (cs.take (templateEnd cs)) := by
  have hagrees : Agrees (templateLength [.chars false]) cs :=
    templateLength_agrees (by simp [AsciiQuotes]) cs
  rw [templateEnd, hagrees, templateEnd]
  cases templateLength [.chars false] cs <;> simp

theorem regexLength_tail (c : Char) (cs : Text) :
    (regexLength false (byteChars (c :: cs)).tail).map (· + 1) =
      (regexLength false cs).map fun n => Text.size ((c :: cs).take (n + 1)) := by
  obtain ⟨d, hs, hbytes, hd⟩ := Text.exists_byteChars c cs
  rw [hbytes, List.tail_cons, (passes_regexLength false).run hd.rest, regexLength_agrees false cs]
  cases regexLength false cs with
  | none => rfl
  | some n =>
    simp only [Option.map_some, List.take_succ_cons, Text.size_cons, hd.size, Option.some.injEq]
    omega

theorem regexChars?_cons (c : Char) (cs : Text) :
    regexChars? (c :: cs) = (regexLength false cs).map fun n => min n cs.length + 1 := by
  have hchars : regexChars? (c :: cs) =
      ((regexLength false (byteChars (c :: cs)).tail).map (· + 1)).map (lengthIn · (c :: cs)) := by
    rw [regexChars?, Option.map_map]
    rfl
  rw [hchars, regexLength_tail, Option.map_map]
  congr 1
  funext n
  rw [Function.comp, lengthIn_size_take, List.take_succ_cons, List.length_cons, List.length_take]

end Script.Token
end SfcTsx
