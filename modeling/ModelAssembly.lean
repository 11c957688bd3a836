import ModelAssembly.Main
import ModelAssembly.Proofs.OrderedMap
import ModelAssembly.Proofs.Outcome
import ModelAssembly.Proofs.Arena
import ModelAssembly.Proofs.Declarations
import ModelAssembly.Proofs.DeclarationTree
import ModelAssembly.Proofs.Placement
import ModelAssembly.Proofs.Grafting
import ModelAssembly.Proofs.OwnMembers
import ModelAssembly.Proofs.Linking
import ModelAssembly.Proofs.Overrides
import ModelAssembly.Proofs.Containment
import ModelAssembly.Proofs.Hierarchy
import ModelAssembly.Proofs.CycleBreaking
import ModelAssembly.Proofs.Linearization
import ModelAssembly.Proofs.Merging
import ModelAssembly.Proofs.Lineage
import ModelAssembly.Proofs.Registry
import ModelAssembly.Proofs.ParentLinks
import ModelAssembly.Proofs.Ancestry
import ModelAssembly.Proofs.Stages
import ModelAssembly.Proofs.Run
import ModelAssembly.Proofs.Instantiation
import ModelAssembly.Proofs.Inheritance
import ModelAssembly.Proofs.Reports
import ModelAssembly.Proofs.Delivery
import ModelAssembly.Proofs.Pragmas
import ModelAssembly.Proofs.Validation
import ModelAssembly.Proofs.Drafting
import ModelAssembly.Proofs.Operations
import ModelAssembly.Proofs.OwnerTree
import ModelAssembly.Proofs.Walk
import ModelAssembly.Proofs.Verdict
import ModelAssembly.Proofs.Safety
import ModelAssembly.Proofs.Lockstep
import ModelAssembly.Proofs.Scheduler
import ModelAssembly.Proofs.Scheduling
import ModelAssembly.Proofs.Displacement
import ModelAssembly.Proofs.Ungrafted
import ModelAssembly.Proofs.GraftBlocks
import ModelAssembly.Proofs.Collisions
import ModelAssembly.Proofs.ScopeNames
import ModelAssembly.Proofs.Naming
import ModelAssembly.Proofs.NamedParents
import ModelAssembly.Proofs.Lookups
import ModelAssembly.Proofs.BundleFold
import ModelAssembly.Proofs.Search
import ModelAssembly.Proofs.Explanations
import ModelAssembly.Proofs.BuiltInParents
import ModelAssembly.Proofs.Rearrangement
import ModelAssembly.Proofs.Profiles
import ModelAssembly.Proofs.Settling
import ModelAssembly.Proofs.Correspondence
import ModelAssembly.Proofs.DeclarationOrder
import ModelAssembly.Proofs.Replacements
import ModelAssembly.Proofs.Classification
import ModelAssembly.Proofs.DuplicateMembers
import ModelAssembly.Proofs.MergeOrder
import ModelAssembly.Proofs.Outline
import ModelAssembly.Proofs.GlobalBlocks
import ModelAssembly.Proofs.Flattening
import ModelAssembly.Proofs.MemberSources
import ModelAssembly.Proofs.TypeOrder
import ModelAssembly.Proofs.GraftPaths
import ModelAssembly.Proofs.Embedding
import ModelAssembly.Proofs.Mutation
import ModelAssembly.Proofs.FacetOverrides
import ModelAssembly.Proofs.NearestFiles
import ModelAssembly.Proofs.MemberKeys
import ModelAssembly.Proofs.MergingInTurn
