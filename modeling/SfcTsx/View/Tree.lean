import SfcTsx.Diagnostic
import SfcTsx.Markup.Template
import SfcTsx.View.Loop
import SfcTsx.View.TagName

namespace SfcTsx.View

open Markup (Directive Tag Value)

/-- What an element contributes to a chain of conditions. -/
inductive BranchKind where
  | ifBranch
  | elseIfBranch
  | elseBranch
deriving DecidableEq, Repr

mutual

inductive Node where
  | element (tag : Tag) (children : List Node)
  | component (tag : Tag) (children : List Node)
  /-- A `<template>`; `slot` is its slot directive if it stands directly inside a component. -/
  | container (tag : Tag) (slot : Option Directive) (children : List Node)
  | text (span : Span) (data : Text)
  | interpolation (span : Span)
  | comment (span : Span)
  /-- A `v-if` with the `v-else-if` and `v-else` that follow it. The separators are the spans of
  white space and comments between two branches. -/
  | group (branches : List Branch) (separators : List Span)
  /-- A `v-for`. The parts are missing if its expression could not be read. -/
  | loop (directive : Directive) (parts : Option Loop) (body : Node)

inductive Branch where
  | mk (kind : BranchKind) (directive : Directive) (body : Node)

end

mutual

def Node.span : Node → Span
  | .element tag _ | .component tag _ | .container tag _ _ => tag.span
  | .text s _ | .interpolation s | .comment s => s
  | .group branches _ => branchesSpan branches
  | .loop _ _ body => body.span

def Branch.span : Branch → Span
  | .mk _ _ body => body.span

def branchesSpan : List Branch → Span
  | [] => ⟨0, 0⟩
  | [b] => b.span
  | b :: bs => b.span.cover (branchesSpan bs)

end

namespace Branch

def kind : Branch → BranchKind
  | .mk kind _ _ => kind

def directive : Branch → Directive
  | .mk _ directive _ => directive

def body : Branch → Node
  | .mk _ _ body => body

end Branch

namespace Node

def isInsignificant : Node → Bool
  | .text _ data => Text.isBlank data
  | .comment _ => true
  | _ => false

/-- The directive that makes the node the content of a named slot. -/
def slot? : Node → Option Directive
  | .container _ slot _ => slot
  | _ => none

end Node

/-- The expression of a directive, unless it is missing or blank. -/
def expression? (d : Directive) : Option Value := d.exp.filter fun exp => !Text.isBlank exp.content

/-- What was left out of a tree, and why. -/
structure Notes where
  dropped : List Span := []
  diagnostics : List Diagnostic := []
deriving DecidableEq, Repr

instance : Append Notes := ⟨fun a b => ⟨a.dropped ++ b.dropped, a.diagnostics ++ b.diagnostics⟩⟩

/-- A chain of conditions that may go on. -/
structure Chain where
  branches : List Branch
  separators : List Span
  /-- White space and comments behind the last branch. -/
  pending : List Node
  /-- The last branch is a `v-else`. -/
  complete : Bool

namespace Chain

def start (d : Directive) (body : Node) : Chain := ⟨[⟨.ifBranch, d, body⟩], [], [], false⟩

def add (c : Chain) (kind : BranchKind) (d : Directive) (body : Node) : Chain :=
  { branches := c.branches ++ [⟨kind, d, body⟩]
    separators := c.separators ++ c.pending.map Node.span
    pending := []
    complete := kind = .elseBranch }

/-- The nodes of a chain that goes no further. -/
def close : Option Chain → List Node
  | some c => .group c.branches c.separators :: c.pending
  | none => []

end Chain

/-- The part of a parsed node among its siblings. -/
inductive Role where
  | plain
  /-- White space or a comment, which does not end a chain. -/
  | insignificant
  | branch (kind : BranchKind) (directive : Directive)

/-- The branch that an element is; the content of a slot is none. -/
def branch? (inComponent : Bool) (tag : Tag) : Option (BranchKind × Directive) :=
  if inComponent && tag.name == "template" && tag.hasDirective "slot" then none
  else
    (tag.directive? "if").map (BranchKind.ifBranch, ·)
      <|> (tag.directive? "else-if").map (BranchKind.elseIfBranch, ·)
      <|> (tag.directive? "else").map (BranchKind.elseBranch, ·)

def role (inComponent : Bool) : Markup.Node → Role
  | .element tag _ =>
    match branch? inComponent tag with
    | some (kind, d) => .branch kind d
    | none => .plain
  | .text _ data => if Text.isBlank data then .insignificant else .plain
  | .interpolation .. => .plain
  | .comment .. => .insignificant

def isComponent (tag : Tag) : Bool := tag.name != "template" && !isNative tag.name

def nodeOf (inComponent : Bool) (tag : Tag) (children : List Node) : Node :=
  if tag.name = "template" then
    .container tag (if inComponent then tag.directive? "slot" else none) children
  else if isComponent tag then .component tag children
  else .element tag children

def addLoop (tag : Tag) (node : Node) : Node × Notes :=
  match tag.directive? "for" with
  | none => (node, {})
  | some d =>
    match expression? d with
    | none =>
      (node, { diagnostics := [⟨.invalidDirective, "v-for is missing an expression".toList, d.span⟩] })
    | some exp =>
      match Loop.parse? exp.content exp.span.start with
      | some parts => (.loop d (some parts) node, {})
      | none =>
        let message := "invalid v-for expression: ".toList ++ Text.trim exp.content
        (.loop d none node, { diagnostics := [⟨.invalidDirective, message, exp.span⟩] })

def brokenChain (d : Directive) (element : Span) : Notes :=
  { dropped := [element]
    diagnostics :=
      [⟨.invalidChain, "v-else or v-else-if must be preceded by v-if".toList, d.span⟩] }

mutual

def build (inComponent : Bool) : Markup.Node → Node × Notes
  | .element tag children =>
    let (nodes, notes) := buildAll (isComponent tag) none children
    let node := nodeOf inComponent tag nodes
    if node.slot?.isSome then (node, notes)
    else
      let (node, more) := addLoop tag node
      (node, notes ++ more)
  | .text s data => (.text s data, {})
  | .interpolation s _ => (.interpolation s, {})
  | .comment s _ => (.comment s, {})

def buildAll (inComponent : Bool) (chain : Option Chain) : List Markup.Node → List Node × Notes
  | [] => (Chain.close chain, {})
  | n :: ns =>
    let (node, notes) := build inComponent n
    let after (closed : List Node) (notes : Notes) (rest : List Node × Notes) : List Node × Notes :=
      (closed ++ rest.1, notes ++ rest.2)
    match role inComponent n, chain with
    | .insignificant, some c =>
      after [] notes (buildAll inComponent (some { c with pending := c.pending ++ [node] }) ns)
    | .branch .ifBranch d, chain =>
      after (Chain.close chain) notes (buildAll inComponent (some (.start d node)) ns)
    | .branch kind d, chain =>
      match chain.filter (!·.complete) with
      | some c => after [] notes (buildAll inComponent (some (c.add kind d node)) ns)
      | none => after (Chain.close chain) (brokenChain d n.span) (buildAll inComponent none ns)
    | _, chain => after (Chain.close chain ++ [node]) notes (buildAll inComponent none ns)

end

def ofTemplate (t : Markup.Template) : List Node × Notes := buildAll false none t.nodes

end SfcTsx.View
