import Federation.Document.Rules
import Federation.Manifest.Load
import Federation.Proofs.Composition.Idempotence
import Federation.Proofs.Composition.MoreServices
import Federation.Proofs.Composition.Rebuilding
import Federation.Proofs.Composition.SourcePositions
import Federation.Proofs.Composition.TypeSafety
import Federation.Proofs.Schema.DefinitionOrder
import Federation.Proofs.Subgraph.RootRenaming
import Federation.Proofs.Supergraph.Loading
import Federation.Proofs.Composition.DroppedServices
import Federation.Proofs.Composition.Stripping
import Federation.Proofs.Composition.FederationRecord
import Federation.Proofs.Composition.Repeatability
import Federation.Proofs.Composition.UnrelatedServices
import Federation.Proofs.Composition.MergedDocument
import Federation.Proofs.Composition.References
import Federation.Proofs.Composition.Interfaces
import Federation.Proofs.Composition.Placement
import Federation.Proofs.Schema.Acceptance
import Federation.Proofs.Document.Strings
import Federation.Proofs.Composition.SplitExtensions
import Federation.Proofs.Schema.Increments
import Federation.Proofs.Composition.UnitedApplications
import Federation.Proofs.Composition.DirectiveSignatures
import Federation.Proofs.Composition.FirstDeclarations
import Federation.Proofs.Composition.SharedStructure
import Federation.Proofs.Composition.UnbackedFields
import Federation.Proofs.FieldSet.OwnTokens
import Federation.Proofs.Composition.Keys
import Federation.Proofs.Composition.Subtyping
import Federation.Proofs.Supergraph.Numbering
import Federation.Proofs.Manifest.Runs
import Federation.Proofs.Directives.ApplicationOrder
import Federation.Proofs.Text.Lines
import Federation.Proofs.Subgraph.Grouping
