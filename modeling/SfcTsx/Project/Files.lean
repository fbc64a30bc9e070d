import SfcTsx.Order
import SfcTsx.Project.Check

namespace SfcTsx.Project

/-- The names of a path from the root on. -/
abbrev Path := List Text

/-- The names of an absolute path, or of one that is relative to another. -/
def Path.resolve (base : Path) (path : Text) : Path :=
  let start := if path.head? = some '/' then [] else base
  (Text.splitOn '/' path).foldl (fun names name =>
    if name = [] ∨ name = ['.'] then names
    else if name = ['.', '.'] then names.dropLast
    else names ++ [name]) start

def textLe : Text → Text → Bool
  | [], _ => true
  | _ :: _, [] => false
  | a :: as, b :: bs => a < b || (a == b && textLe as bs)

/-- The order in which directories are searched: by the first name that differs. -/
def pathLe : Path → Path → Bool
  | [], _ => true
  | _ :: _, [] => false
  | a :: as, b :: bs => if a = b then pathLe as bs else textLe a b

/-- Files by their paths; a later one of the same path replaces an earlier one. -/
abbrev Files := List (Path × Text)

namespace Files

def put (files : Files) (path : Path) (content : Text) : Files :=
  files.filter (·.1 != path) ++ [(path, content)]

def isFile (files : Files) (path : Path) : Bool := files.any (·.1 == path)

def isDirectory (files : Files) (path : Path) : Bool :=
  files.any fun file => path.isPrefixOf file.1 && file.1 != path

def isBlocked (files : Files) (path : Path) : Bool :=
  files.any fun file => file.1.isPrefixOf path && file.1 != path

/-- Writes a file, unless one of its directories is a file or it is a directory. -/
def write? (files : Files) (path : Path) (content : Text) : Option Files :=
  if files.isDirectory path || files.isBlocked path then none
  else some (files.put path content)

/-- The files in a directory by their paths in it, in the order of a search. -/
def search (files : Files) (directory : Path) : List (Path × Text) :=
  sortBy (fun a b => pathLe a.1 b.1) <| files.filterMap fun (path, content) =>
    if directory.isPrefixOf path then some (path.drop directory.length, content) else none

end Files

structure Outcome where
  summary : Summary
  printed : Text
  emitted : Text
  files : Files

def projectFile (files : Files) (current : Path) (workspace : Path) (args : Arguments) :
    Except ProjectError (Option Text) :=
  let read (path : Path) : Except ProjectError (Option Text) :=
    match files.lookup path with
    | some content => return some content
    | none => throw .configRead
  match args.tsconfig with
  | some path => read (Path.resolve current path)
  | none =>
    let path := workspace ++ ["tsconfig.json".toList]
    if files.isFile path || files.isDirectory path then read path else return none

def writeOutputs (directory : Path) (files : Files) (outputs : List (Text × Text)) :
    Except ProjectError Files :=
  outputs.foldlM (fun files (name, content) =>
    let path := Path.resolve directory name
    match files.write? path content with
    | some files => return files
    | none => throw (.write (Text.join ['/'] path))) files

/-- Checks the components of a workspace, from the directory `current`. -/
def run (files : Files) (current : Path) (args : Arguments) : Except ProjectError Outcome := do
  let workspace := Path.resolve current args.workspace
  let session ← Session.start args (← projectFile files current workspace args)
  let root := '/' :: Text.join ['/'] workspace
  let sources := (files.search workspace).map fun (path, content) =>
    let path := Text.join ['/'] path
    ({ path, location := root ++ '/' :: path, content } : Source)
  let checks := (sources.filter fun source => session.selects source.path).map session.check
  let written ← match args.outDir with
    | some outDir =>
      checks.foldlM (fun files check =>
        writeOutputs (Path.resolve current outDir) files check.outputs) files
    | none => pure files
  return { summary := session.summary checks
           printed := checks.flatMap (·.text) ++ session.closing checks
           emitted := checks.flatMap (·.emitted)
           files := written }

end SfcTsx.Project
