import EventSchema.Compilation
import EventSchema.Repository.SourceTree
import EventSchema.Settings
import EventSchema.Proofs.Agreement
import EventSchema.Proofs.Reordering
import EventSchema.Proofs.Authored
import EventSchema.Proofs.ClassIdentifiers
import EventSchema.Proofs.DryRun
import EventSchema.Proofs.ParentLinks
import EventSchema.Proofs.Creation
import EventSchema.Proofs.StructuralRuns
import EventSchema.Proofs.Merging
import EventSchema.Proofs.SettledInheritance
import EventSchema.Proofs.ProfileRemoval
import EventSchema.Proofs.InactiveTags
import EventSchema.Proofs.Traces
import EventSchema.Proofs.Replay
import EventSchema.Proofs.Lifecycle
import EventSchema.Proofs.Incompleteness
import EventSchema.Proofs.FileOrder
import EventSchema.Proofs.Contributions
import EventSchema.Proofs.WellFormedRuns
import EventSchema.Proofs.EnumerationMembers
import EventSchema.Proofs.TypeIdentifiers
import EventSchema.Proofs.WithoutExtension
import EventSchema.Proofs.PartialSchedules
import EventSchema.Proofs.TrimmedDrafts
import EventSchema.Proofs.TrimmedPlanning
import EventSchema.Proofs.DisabledExtensions
import EventSchema.Proofs.IndependentRuns
import EventSchema.Proofs.SoundRendering
import EventSchema.Proofs.ObjectReferences
import EventSchema.Proofs.ProfileProvenance
import EventSchema.Proofs.MergedPaths
import EventSchema.Proofs.MergeChanges
import EventSchema.Proofs.RepeatedEdits
import EventSchema.Proofs.ExactOutcomes
import EventSchema.Proofs.ExactRemoval
import EventSchema.Proofs.IdentifierArithmetic
import EventSchema.Proofs.AttributeMerging
import EventSchema.Proofs.ExtensionIdentifiers
import EventSchema.Proofs.MergeAssociativity
import EventSchema.Proofs.SettledPlanners
import EventSchema.Proofs.ExactReferences
import EventSchema.Proofs.ProfilePrecedence
import EventSchema.Proofs.StableIdentity
import EventSchema.Proofs.Insertions
import EventSchema.Proofs.PatchMarkers
import EventSchema.Proofs.PatchIncludes
import EventSchema.Proofs.KeyOrder
import EventSchema.Proofs.Fingerprints
import EventSchema.Proofs.SourceTables
