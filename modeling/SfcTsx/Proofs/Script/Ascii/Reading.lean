import SfcTsx.Proofs.Script.Ascii.Offsets
import SfcTsx.Proofs.Script.Ascii.Productions
import SfcTsx.Script.Parse

namespace SfcTsx.Script

namespace Tolerant

theorem twins_ofText (dialect : Dialect) {source : Text}
    (hnum : (Token.tokenize source).all (Token.endsNumber source) = true) :
    Input.Twins (Ascii.ofText source) (.ofText dialect (Ascii.ofText source).text)
      (.ofText dialect source) := by
  have htwins := Token.tokenize_twins hnum
  have hlength := htwins.length_eq
  have hpos := (Token.tokenize_laid source).length_pos
  refine ⟨rfl, rfl, ?_, fun n => ?_, Ascii.offset_length [] source, Ascii.offset_mono source⟩
  · simpa [Input.ofText] using hlength
  · have hn : min n ((Token.tokenize source).length - 1) < (Token.tokenize source).length := by omega
    have h := htwins.get (hlength ▸ hn) hn
    simpa [Input.tokenAt, Input.last, Input.ofText, hlength, hn] using h

theorem parse_ascii (dialect : Dialect) {source : Text}
    (hnum : (Token.tokenize source).all (Token.endsNumber source) = true) :
    (parse dialect (Ascii.ofText source).text).relocate (Ascii.ofText source).relocation =
      (parse dialect source).viaAscii source := by
  have htwins := twins_ofText dialect hnum
  have halong : Along (Ascii.ofText source) (.ofText dialect (Ascii.ofText source).text)
    (.ofText dialect source) stmts stmts := inferInstance
  have hbody := (Pair.mk (halong.run 0).1).stmts
  have hend := Ascii.offset_length source []
  rw [List.append_nil, ← Ascii.size_map] at hend
  have hspan : (Ascii.ofText source).span ⟨0, Text.size (Ascii.ofText source).text⟩ =
    ⟨0, source.size⟩ := congrArg₂ Span.mk (Ascii.offset_length [] source) hend
  exact congrArg₂ Program.mk hspan hbody

end Tolerant

section

variable {strict? : Dialect → Text → Option Program} {dialect : Dialect} {source : Text}

theorem readText_program (h : (readText strict? dialect source).strategy = .tolerant) :
    (readText strict? dialect source).program = Tolerant.parse dialect source := by
  simp only [readText] at h ⊢
  split
  · rfl
  · rename_i hdepth
    rw [if_neg hdepth] at h
    split at h
    · exact absurd h nofun
    · rfl

/-- By way of its ASCII form a script that only the tolerant parser accepts has the tree it has without,
whatever the strict parser is. -/
theorem read_ascii_program
    (hnum : (Token.tokenize source).all (Token.endsNumber source) = true)
    (hascii : (readBy strict? dialect true source).strategy = .tolerant)
    (hplain : (readBy strict? dialect false source).strategy = .tolerant) :
    (readBy strict? dialect true source).program =
      if source.any (128 ≤ ·.toNat) then (readBy strict? dialect false source).program.viaAscii source
      else (readBy strict? dialect false source).program := by
  have hfalse : readBy strict? dialect false source = readText strict? dialect source := rfl
  rw [hfalse] at hplain ⊢
  by_cases hany : source.any (128 ≤ ·.toNat) = true
  · simp only [readBy, hany, Bool.and_self, if_true] at hascii ⊢
    rw [readText_program hascii, readText_program hplain, Tolerant.parse_ascii dialect hnum]
  · simp only [readBy, hany, Bool.and_false]
    rfl

end

/-- Both differences at once: an import under another name, and a private key. -/
theorem read_ascii_program_renamed :
    let source := "import { é as x } from 'y' ) ({ #é: 1 })".toList
    (Token.tokenize source).all (Token.endsNumber source) = true ∧
      (read .ts true source).strategy = .tolerant ∧ (read .ts false source).strategy = .tolerant ∧
      (read .ts true source).program = (read .ts false source).program.viaAscii source := by
  intro source
  have hnum : (Token.tokenize source).all (Token.endsNumber source) = true := by decide +kernel
  have hascii : (read .ts true source).strategy = .tolerant := by decide +kernel
  have hplain : (read .ts false source).strategy = .tolerant := by decide +kernel
  have hprogram := read_ascii_program hnum hascii hplain
  rw [if_pos (by decide +kernel)] at hprogram
  exact ⟨hnum, hascii, hplain, hprogram⟩

/-- What the import specifiers of a script have as names in the other modules. -/
def Program.importedNames (p : Program) : List (Option String) :=
  p.body.flatMap fun
    | .importDecl d => d.specifiers.map (·.imported)
    | _ => []

/-- The name that an import has in the other module is lost. -/
theorem read_ascii_imported :
    let source := "import { é as x } from 'y' )".toList
    (read .ts true source).strategy = .tolerant ∧ (read .ts false source).strategy = .tolerant ∧
      (read .ts false source).program.importedNames = [some "é"] ∧
      (read .ts true source).program.importedNames = [some "_"] := by
  decide +kernel

end SfcTsx.Script
