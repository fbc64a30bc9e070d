import SfcTsx.SourceMap.V3

namespace SfcTsx.Component

inductive ArtifactKind where
  /-- The scripts, with a function that gives access to what they declare. -/
  | script
  /-- The template as a function that renders it. -/
  | render
  /-- What stands for the component where it is imported. -/
  | bundle
deriving DecidableEq, Repr

def ArtifactKind.word : ArtifactKind → String
  | .script => "script"
  | .render => "render"
  | .bundle => "bundle"

structure Artifact where
  kind : ArtifactKind
  filename : Text
  content : Text
  sourceMap : SourceMap

def Artifact.toV3 (a : Artifact) (source : Text) (options : V3.Options) : V3 :=
  a.sourceMap.toV3 source a.content options

def artifactName (component : Text) (kind : ArtifactKind) (extension : String) : Text :=
  match kind with
  | .bundle => component ++ '.' :: extension.toList
  | _ => component ++ '.' :: (kind.word.toList ++ '.' :: extension.toList)

def baseName (path : Text) : Text :=
  (path.reverse.takeWhile fun c => c != '/' && c != '\\').reverse

/-- What the modules of a component call one of them in an import. -/
def specifier (component : Text) (kind : ArtifactKind) : Text :=
  let base := baseName component
  let name := if base.isEmpty then "Component.vue".toList else base
  match kind with
  | .bundle => "./".toList ++ name
  | _ => "./".toList ++ name ++ '.' :: kind.word.toList

end SfcTsx.Component
