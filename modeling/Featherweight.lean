import Featherweight.Main
import Featherweight.Proofs.Results
import Featherweight.Proofs.Fuel
import Featherweight.Proofs.Substitution
import Featherweight.Proofs.Hierarchy
import Featherweight.Proofs.Inheritance
import Featherweight.Proofs.LegalClasses
import Featherweight.Proofs.Subtyping
import Featherweight.Proofs.SubtypeOrder
import Featherweight.Proofs.Members
import Featherweight.Proofs.TotalLookups
import Featherweight.Proofs.Typing
import Featherweight.Proofs.Lookups
import Featherweight.Proofs.Overriding
import Featherweight.Proofs.Shadowing
import Featherweight.Proofs.Composition
import Featherweight.Proofs.Grammar
import Featherweight.Proofs.Unambiguous
import Featherweight.Proofs.Recognition
import Featherweight.Proofs.ParsedTypes
import Featherweight.Proofs.ParsedTerms
import Featherweight.Proofs.ParsedPrograms
import Featherweight.Proofs.Cursor
import Featherweight.Proofs.Returning
import Featherweight.Proofs.OnePassBounds
import Featherweight.Proofs.Lexing
import Featherweight.Proofs.Tiling
import Featherweight.Proofs.Slices
import Featherweight.Proofs.PrintedTerms
import Featherweight.Proofs.ParsedNames
import Featherweight.Proofs.ParsedScopes
import Featherweight.Proofs.ParsedSpans
import Featherweight.Proofs.Values
import Featherweight.Proofs.FieldLayout
import Featherweight.Proofs.Construction
import Featherweight.Proofs.Casts
import Featherweight.Proofs.Parameters
import Featherweight.Proofs.Closing
import Featherweight.Proofs.PrintedValues
import Featherweight.Proofs.Subevaluation
import Featherweight.Proofs.RunInvariants
import Featherweight.Proofs.RuntimeTypes
import Featherweight.Proofs.SubstitutedMembers
import Featherweight.Proofs.TypeScopes
import Featherweight.Proofs.WellFormedTypes
import Featherweight.Proofs.LargerTables
import Featherweight.Proofs.SharedClasses
import Featherweight.Proofs.Warnings
import Featherweight.Proofs.CastWarnings
import Featherweight.Proofs.ClassOrder
import Featherweight.Proofs.Soundness
import Featherweight.Proofs.Renaming
import Featherweight.Proofs.Heads
import Featherweight.Proofs.RenamedMethods
import Featherweight.Proofs.RenamedTyping
import Featherweight.Proofs.RenamedEvaluation
import Featherweight.Proofs.RenamedPrograms
