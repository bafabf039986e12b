import ConfigForge.Proofs.BodyNames
import ConfigForge.Proofs.HeaderOrder
import ConfigForge.Sample
import ConfigForge.Proofs.Spelling
import ConfigForge.Proofs.WalkOrder
import ConfigForge.Proofs.Visits
import ConfigForge.Proofs.Containment
import ConfigForge.Proofs.Locality
import ConfigForge.Proofs.Meaning
import ConfigForge.Proofs.Program
import ConfigForge.Proofs.IntegerHelpers
import ConfigForge.Proofs.InitialValues
import ConfigForge.Proofs.Grammar
import ConfigForge.Proofs.CompletionOrder
import ConfigForge.Proofs.CompleteMembers
import ConfigForge.Proofs.Rendering
import ConfigForge.Proofs.Calls
import ConfigForge.Proofs.LegalNames
import ConfigForge.Proofs.Faults
import ConfigForge.Proofs.Scanning
import ConfigForge.Proofs.BalancedCode
import ConfigForge.Proofs.Defaults
import ConfigForge.Proofs.InitialLines
import ConfigForge.Proofs.IntegerTypes
import ConfigForge.Proofs.Balance
import ConfigForge.Proofs.ErrorPaths
import ConfigForge.Proofs.FirstContradiction
import ConfigForge.Proofs.StringLiterals
import ConfigForge.Proofs.HeaderClasses
import ConfigForge.Proofs.IncludeGuards
import ConfigForge.Proofs.MemberEntries
import ConfigForge.Proofs.IndexedNames
import ConfigForge.Proofs.SampleSchemas
import ConfigForge.Proofs.NormalLines
import ConfigForge.Proofs.HelperNames
import ConfigForge.Proofs.NameLaws
import ConfigForge.Proofs.Steps
import ConfigForge.Proofs.Registrations
import ConfigForge.Proofs.ConstantExpressions
import ConfigForge.Proofs.IntegerLiterals
