import SfcTsx.Json
import SfcTsx.LineIndex
import SfcTsx.SourceMap
import SfcTsx.Vlq

namespace SfcTsx

/-- A generated position and the source position it stands for. -/
structure Segment where
  generated : LineCol
  source : LineCol
deriving DecidableEq, Repr

/-- What a written map names besides the positions. -/
structure V3.Options where
  source : Text := []
  file : Option Text := none
  includeContent : Bool := false
  /-- A position for every character of copied text, not only for every line. -/
  hires : Bool := false

structure V3 where
  file : Option Text
  sources : List Text
  contents : Option (List Text)
  mappings : Text

namespace V3

/-- The offsets inside a copied text, after its first character, that get a position of their own:
line starts, and with `hires` all but the ends of lines that hold something. -/
def innerOffsets (hires : Bool) (previous : Char) (offset : Nat) : Text → List Nat
  | [] => []
  | c :: cs =>
    let afterNewline := previous == '\n'
    let rest := innerOffsets hires c (offset + c.utf8Size) cs
    if (hires || afterNewline) && !(c == '\n' && !afterNewline) then offset :: rest else rest

def offsetPairs (hires : Bool) (generated : Text) (m : Mapping) : List (Nat × Nat) :=
  (m.generated.start, m.source.start) ::
    if m.isVerbatim then
      match m.generated.text generated with
      | [] => []
      | c :: cs =>
        (innerOffsets hires c c.utf8Size cs).map fun delta =>
          (m.generated.start + delta, m.source.start + delta)
    else []

def segment? (generated source : LineIndex) (pair : Nat × Nat) : Option Segment :=
  match generated.lineColUtf16 pair.1, source.lineColUtf16 pair.2 with
  | some g, some s => some ⟨g, s⟩
  | _, _ => none

def segments (map : SourceMap) (source generated : Text) (hires : Bool) : List Segment :=
  let sourceIndex := LineIndex.ofText source
  let generatedIndex := LineIndex.ofText generated
  (map.mappings.toList.flatMap (offsetPairs hires generated)).filterMap
    (segment? generatedIndex sourceIndex)

def before (p q : LineCol) : Bool := p.line < q.line || (p.line == q.line && p.col < q.col)

/-- The segments whose generated position lies after that of every segment kept so far. -/
def increasing (last : Option LineCol) : List Segment → List Segment
  | [] => []
  | s :: ss =>
    match last with
    | some position =>
      if before position s.generated then s :: increasing (some s.generated) ss
      else increasing last ss
    | none => s :: increasing (some s.generated) ss

/-- What the next segment is written relative to. -/
structure Cursor where
  line : Nat := 0
  generatedCol : Nat := 0
  sourceLine : Nat := 0
  sourceCol : Nat := 0
  /-- The line holds no segment yet. -/
  fresh : Bool := true

/-- The four differences of a segment, the number of the source being always zero. -/
def encodeSegment (generatedCol : Nat) (cursor : Cursor) (s : Segment) : Text :=
  Vlq.encode ((s.generated.col : Int) - generatedCol) ++ Vlq.encode 0 ++
    Vlq.encode ((s.source.line : Int) - cursor.sourceLine) ++
    Vlq.encode ((s.source.col : Int) - cursor.sourceCol)

def encodeFrom (cursor : Cursor) : List Segment → Text
  | [] => []
  | s :: ss =>
    let next : Cursor :=
      { line := s.generated.line, generatedCol := s.generated.col, sourceLine := s.source.line
        sourceCol := s.source.col, fresh := false }
    if cursor.line < s.generated.line then
      List.replicate (s.generated.line - cursor.line) ';' ++ encodeSegment 0 cursor s ++
        encodeFrom next ss
    else
      (if cursor.fresh then [] else [',']) ++ encodeSegment cursor.generatedCol cursor s ++
        encodeFrom next ss

def encode (segments : List Segment) : Text := encodeFrom {} segments

def toJson (map : V3) : Json :=
  .record <|
    [("version", .nat 3)] ++
    (map.file.map fun file => ("file", Json.text file)).toList ++
    [("sources", .arr (map.sources.map .text))] ++
    (map.contents.map fun contents => ("sourcesContent", Json.arr (contents.map .text))).toList ++
    [("names", .arr []), ("mappings", .text map.mappings)]

def render (map : V3) : Text := map.toJson.compact

end V3

def SourceMap.toV3 (map : SourceMap) (source generated : Text) (options : V3.Options) : V3 :=
  { file := options.file
    sources := [options.source]
    contents := if options.includeContent then some [source] else none
    mappings := V3.encode (V3.increasing none (V3.segments map source generated options.hires)) }

end SfcTsx
