import Projector.Compiler.ScanProofs

namespace Projector.Compiler
open Lib Projector.Core

/-- A property that counting, fetching and the two deferred scans keep; the
traversal consists of these. -/
structure Stable (P : Compilation → Prop) : Prop where
  count : ∀ c statistics bag, P c → P { c with statistics := statistics, diagnosticBag := bag }
  classes : ∀ c iris, P c → P { c with classIris := iris }
  properties : ∀ c domains ranges, P c → P { c with domains := domains, ranges := ranges }
  roles : Preserves P ensureRoles
  scan : Preserves P scanClosureMetadata

namespace Stable
variable {P : Compilation → Prop}

theorem ignore (h : Stable P) (value : Node) : Preserves P (Compiler.ignore value) :=
  Preserves.modify (fun c hc => h.count c _ _ hc)

theorem individualId (h : Stable P) (value : Node) : Preserves P (Compiler.individualId value) := by
  unfold Compiler.individualId
  apply Preserves.ite
  · exact Preserves.ret _
  apply Preserves.bind (Preserves.gets _)
  intro c
  apply Preserves.bind (Preserves.when h.scan)
  intro _
  exact Preserves.gets _

theorem restrictionOrIgnore (h : Stable P) (owner : Node) (subject : String)
    (expression : Node) : Preserves P (Compiler.restrictionOrIgnore owner subject expression) := by
  unfold Compiler.restrictionOrIgnore restrictionEdges
  apply Preserves.bind
  · split
    · exact Preserves.ret _
    · exact Preserves.bind h.roles (fun _ => Preserves.gets _)
  intro edges
  apply Preserves.bind (Preserves.emitAll edges)
  intro _
  exact Preserves.when (h.ignore owner)

theorem subclassEdges (h : Stable P) (options : ProjectionOptions) (axiomNode : Node) :
    Preserves P (Compiler.subclassEdges options axiomNode) := by
  unfold Compiler.subclassEdges
  apply Preserves.ite (Preserves.emitAll _)
  apply Preserves.ite (h.ignore axiomNode)
  apply Preserves.ite (h.restrictionOrIgnore axiomNode _ _)
  exact Preserves.ite (h.restrictionOrIgnore axiomNode _ _) (h.ignore axiomNode)

theorem equivalentEdges (h : Stable P) (options : ProjectionOptions) (axiomNode : Node) :
    Preserves P (Compiler.equivalentEdges options axiomNode) := by
  unfold Compiler.equivalentEdges
  split
  · apply Preserves.ite
    · exact Preserves.ite (Preserves.emitAll _) (h.ignore axiomNode)
    apply Preserves.ite
    · apply Preserves.each
      intro operand _
      unfold operandEdges
      apply Preserves.ite (Preserves.emitAll _)
      exact Preserves.ite (Preserves.ret _) (h.restrictionOrIgnore axiomNode _ operand)
    · exact h.ignore axiomNode
  · exact h.ignore axiomNode

theorem annotationEdge (h : Stable P) (axiomNode : Node) :
    Preserves P (Compiler.annotationEdge axiomNode) := by
  unfold Compiler.annotationEdge
  apply Preserves.bind (Preserves.gets _)
  intro known
  apply Preserves.ite (h.ignore axiomNode)
  apply Preserves.ite (h.ignore axiomNode)
  apply Preserves.bind
  · unfold annotationValue
    split
    · exact Preserves.ret _
    · exact h.individualId _
    · apply Preserves.ite (Preserves.ret _)
      apply Preserves.bind (Preserves.modify (fun c hc => h.count c _ _ hc))
      intro _
      exact Preserves.ret _
  intro destination
  exact Preserves.emit _

theorem classAssertionEdge (h : Stable P) (axiomNode : Node) :
    Preserves P (Compiler.classAssertionEdge axiomNode) :=
  Preserves.ite (Preserves.emit _) (h.ignore axiomNode)

theorem objectAssertionEdge (h : Stable P) (axiomNode : Node) :
    Preserves P (Compiler.objectAssertionEdge axiomNode) := by
  unfold Compiler.objectAssertionEdge
  apply Preserves.ite (Preserves.raise _)
  apply Preserves.ite (h.ignore axiomNode)
  apply Preserves.bind (h.individualId _)
  intro source
  apply Preserves.bind (h.individualId _)
  intro target
  exact Preserves.emit _

theorem indexAxioms (h : Stable P) (axioms : List Node) (index : ClassIndex) :
    Preserves P (Compiler.indexAxioms axioms index) := by
  induction axioms generalizing index with
  | nil => exact Preserves.ret _
  | cons a rest ih =>
    apply Preserves.bind
    · unfold indexAxiom
      split
      · exact Preserves.ret _
      · exact Preserves.bind (h.ignore a) (fun _ => Preserves.ret _)
    · exact ih

theorem domainRangeEdges (h : Stable P) : Preserves P Compiler.domainRangeEdges := by
  unfold Compiler.domainRangeEdges
  apply Preserves.bind h.roles
  intro _
  apply Preserves.bind (Preserves.gets _)
  intro domainAxioms
  apply Preserves.bind (h.indexAxioms domainAxioms _)
  intro domains
  apply Preserves.bind (Preserves.gets _)
  intro rangeAxioms
  apply Preserves.bind (h.indexAxioms rangeAxioms _)
  intro ranges
  apply Preserves.bind (Preserves.gets _)
  intro roleState
  exact Preserves.emitAll _

theorem iterLazyRawEdges (h : Stable P) (c : Compilation) :
    Preserves P (Compiler.iterLazyRawEdges c) := by
  unfold Compiler.iterLazyRawEdges
  apply Preserves.bind (Preserves.each (fun a _ => h.subclassEdges _ a))
  intro _
  apply Preserves.bind (Preserves.each (fun a _ => h.equivalentEdges _ a))
  intro _
  apply Preserves.bind
  · apply Preserves.when
    apply Preserves.bind (Preserves.modify (fun c hc => h.classes c _ hc))
    intro _
    exact Preserves.each (fun a _ => h.annotationEdge a)
  intro _
  apply Preserves.bind (Preserves.each (fun a _ => h.classAssertionEdge a))
  intro _
  apply Preserves.bind (Preserves.each (fun a _ => h.objectAssertionEdge a))
  intro _
  apply Preserves.bind (Preserves.modify (fun c hc => h.properties c _ _ hc))
  intro _
  apply Preserves.bind h.domainRangeEdges
  intro _
  exact Preserves.bind h.roles (fun _ => h.scan)

theorem iterEagerRawEdges (h : Stable P) (c : Compilation) :
    Preserves P (Compiler.iterEagerRawEdges c) := by
  unfold Compiler.iterEagerRawEdges
  apply Preserves.bind (Preserves.each (fun a _ => h.subclassEdges _ a))
  intro _
  apply Preserves.bind (Preserves.each (fun a _ => h.equivalentEdges _ a))
  intro _
  apply Preserves.bind (Preserves.when (Preserves.each (fun a _ => h.annotationEdge a)))
  intro _
  apply Preserves.bind (Preserves.each (fun a _ => h.classAssertionEdge a))
  intro _
  apply Preserves.bind (Preserves.each (fun a _ => h.objectAssertionEdge a))
  intro _
  exact h.domainRangeEdges

/-- What the deferred work keeps, the whole traversal keeps. -/
theorem iterRawEdges (h : Stable P) : Preserves P Compiler.iterRawEdges := by
  unfold Compiler.iterRawEdges
  apply Preserves.bind (Preserves.gets _)
  intro c
  exact Preserves.ite (h.iterLazyRawEdges c) (h.iterEagerRawEdges c)

end Stable

end Projector.Compiler
