import SfcTsx.Text

namespace SfcTsx.Project

inductive GlobToken where
  | literal (c : Char)
  | any
  | star
  /-- Directories in front of a path, perhaps none. -/
  | leading
  /-- All that is in a directory. -/
  | trailing
  /-- Directories between two parts of a path, perhaps none. -/
  | between
  | set (negated : Bool) (ranges : List (Char × Char))
  | choice (alternatives : List (List GlobToken))

/-- The tokens of alternatives that are read: finished ones, and those of the last, all in reverse. -/
structure GlobFrame where
  finished : List (List GlobToken) := []
  tokens : List GlobToken := []

structure GlobScan where
  frame : GlobFrame := {}
  /-- The frames around it, the nearest first. -/
  outer : List GlobFrame := []

namespace GlobScan

def inside (s : GlobScan) : Bool := !s.outer.isEmpty

def push (s : GlobScan) (token : GlobToken) : GlobScan :=
  { s with frame := { s.frame with tokens := token :: s.frame.tokens } }

def enter (s : GlobScan) : GlobScan := { frame := {}, outer := s.frame :: s.outer }

def next (s : GlobScan) : GlobScan :=
  { s with frame := { finished := s.frame.tokens.reverse :: s.frame.finished } }

def leave? (s : GlobScan) : Option GlobScan :=
  match s.outer with
  | [] => none
  | frame :: outer =>
    let alternatives := (s.frame.tokens.reverse :: s.frame.finished).reverse
    some (GlobScan.push { frame, outer } (.choice alternatives))

/-- Puts `**` behind a slash: the token of the slash gives way to that of the directories. -/
def deepen (s : GlobScan) (token : GlobToken) : GlobScan :=
  match s.frame.tokens with
  | .leading :: _ | .trailing :: _ => s
  | _ :: tokens => { s with frame := { s.frame with tokens := token :: tokens } }
  | [] => s

/-- Reads `**` between the character before it and the text behind it. Says whether it takes the
slash that follows as well. -/
def doubleStar (s : GlobScan) (previous : Option Char) (rest : Text) : GlobScan × Bool :=
  let plain := ((s.push .star).push .star, false)
  if s.frame.tokens.isEmpty then
    match rest with
    | [] => (s.push .leading, false)
    | c :: _ => if c = '/' then (s.push .leading, true) else plain
  else if previous = some '/' ∨ (s.inside ∧ (previous = some ',' ∨ previous = some '{')) then
    match rest with
    | [] => (s.deepen .trailing, false)
    | c :: _ =>
      if c = '/' then (s.deepen .between, true)
      else if s.inside ∧ (c = ',' ∨ c = '}') then (s.deepen .trailing, false)
      else plain
  else plain

end GlobScan

/-- Reads a set up to its closing bracket. A bracket or hyphen that comes `first` stands for itself;
with `inRange` the next character ends a range. The ranges are in reverse. -/
def globSetFrom (first inRange : Bool) (ranges : List (Char × Char)) :
    Text → Option (List (Char × Char) × Text)
  | [] => none
  | c :: rest =>
    if c = ']' ∧ !first then some ((if inRange then ('-', '-') :: ranges else ranges).reverse, rest)
    else if inRange then
      match ranges with
      | (low, _) :: more =>
        if c < low then none else globSetFrom false false ((low, c) :: more) rest
      | [] => none
    else if c = '-' ∧ !first then globSetFrom false true ranges rest
    else globSetFrom false false ((c, c) :: ranges) rest

def globSet? : Text → Option (GlobToken × Text)
  | '!' :: rest | '^' :: rest =>
    (globSetFrom true false [] rest).map fun (ranges, rest) => (.set true ranges, rest)
  | rest => (globSetFrom true false [] rest).map fun (ranges, rest) => (.set false ranges, rest)

def globFrom : Nat → GlobScan → Option Char → Text → Option (List GlobToken)
  | _, s, _, [] => if s.inside then none else some s.frame.tokens.reverse
  | 0, _, _, _ => none
  | fuel + 1, s, previous, c :: rest =>
    let go (s : GlobScan) : Option (List GlobToken) := globFrom fuel s (some c) rest
    match c with
    | '?' => go (s.push .any)
    | '*' =>
      match rest with
      | '*' :: rest =>
        let (s, takesSlash) := s.doubleStar previous rest
        if takesSlash then globFrom fuel s (some '/') (rest.drop 1) else globFrom fuel s (some '*') rest
      | _ => go (s.push .star)
    | '[' => do
      let (token, rest) ← globSet? rest
      globFrom fuel (s.push token) (some ']') rest
    | '{' => go s.enter
    | '}' => s.leave?.bind go
    | ',' => go (if s.inside then s.next else s.push (.literal ','))
    | '\\' =>
      match rest with
      | escaped :: rest => globFrom fuel (s.push (.literal escaped)) (some escaped) rest
      | [] => none
    | c => go (s.push (.literal c))

structure Glob where
  tokens : List GlobToken

def Glob.parse? (pattern : Text) : Option Glob :=
  (globFrom pattern.length {} none pattern).map Glob.mk

abbrev Bytes := List UInt8

def slash : UInt8 := 47

def endings {α : Type} : List α → List (List α)
  | [] => [[]]
  | a :: as => (a :: as) :: endings as

def afterSlashes : Bytes → List Bytes
  | [] => []
  | b :: bs => if b = slash then bs :: afterSlashes bs else afterSlashes bs

/-- The bytes that a range stands for. A range of characters is one from the last byte of the first to
the first byte of the last, and the other bytes of both stand for themselves. -/
def rangeHas (range : Char × Char) (b : UInt8) : Bool :=
  let low := String.utf8EncodeChar range.1
  let high := String.utf8EncodeChar range.2
  if range.1 = range.2 then low.contains b
  else
    low.dropLast.contains b || high.tail.contains b ||
      (low.getLast?.any (· ≤ b) && high.head?.any (b ≤ ·))

mutual

/-- The token stands for nothing at all: alternatives of which none holds anything. -/
def GlobToken.isVoid : GlobToken → Bool
  | .choice alternatives => allVoidBranches alternatives
  | _ => false

def allVoid : List GlobToken → Bool
  | [] => true
  | t :: ts => t.isVoid && allVoid ts

def allVoidBranches : List (List GlobToken) → Bool
  | [] => true
  | b :: bs => allVoid b && allVoidBranches bs

end

mutual

/-- What can follow a token in bytes that begin with it. -/
def GlobToken.rests (bytes : Bytes) : GlobToken → List Bytes
  | .literal c =>
    let encoded := String.utf8EncodeChar c
    if encoded.isPrefixOf bytes then [bytes.drop encoded.length] else []
  | .any => bytes.tail?.toList
  | .star => endings bytes
  | .leading => bytes :: (if bytes.head? = some slash then [bytes.tail] else []) ++ afterSlashes bytes
  | .trailing => if bytes.head? = some slash then endings bytes.tail else []
  | .between => if bytes.head? = some slash then bytes.tail :: afterSlashes bytes.tail else []
  | .set negated ranges =>
    match bytes with
    | b :: bs => if ranges.any (rangeHas · b) != negated then [bs] else []
    | [] => []
  | .choice alternatives =>
    if allVoidBranches alternatives then [bytes] else branchRests bytes alternatives

def tokensRests (bytes : List Bytes) : List GlobToken → List Bytes
  | [] => bytes
  | t :: ts => tokensRests (bytes.flatMap fun b => t.rests b).eraseDups ts

def branchRests (bytes : Bytes) : List (List GlobToken) → List Bytes
  | [] => []
  | b :: bs => (if allVoid b then [] else tokensRests [bytes] b) ++ branchRests bytes bs

end

def Glob.matches (g : Glob) (path : Text) : Bool :=
  match g.tokens with
  | [.leading] => true
  | tokens => (tokensRests [path.flatMap String.utf8EncodeChar] tokens).contains []

end SfcTsx.Project
