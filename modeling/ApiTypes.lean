import ApiTypes.Main
import ApiTypes.Yaml.Free
import ApiTypes.Yaml.Record
import ApiTypes.Proofs.Pointer
import ApiTypes.Proofs.Reach
import ApiTypes.Proofs.SchemaSize
import ApiTypes.Proofs.Lookup
import ApiTypes.Proofs.Typing.Run
import ApiTypes.Proofs.Uses
import ApiTypes.Proofs.Typing.Ensures
import ApiTypes.Proofs.Typing.SchemaTyped
import ApiTypes.Proofs.ArrayLength
import ApiTypes.Proofs.Typing.ContentTyped
import ApiTypes.Proofs.Typing.PathTyped
import ApiTypes.Proofs.Typing.DocumentTyped
import ApiTypes.Proofs.Names
import ApiTypes.Proofs.Strictness
import ApiTypes.Proofs.Composition
import ApiTypes.Proofs.Tags
import ApiTypes.Proofs.Targets
import ApiTypes.Proofs.TagFiltering
import ApiTypes.Proofs.Tagging
import ApiTypes.Proofs.LeastTagging
import ApiTypes.Proofs.Entries
import ApiTypes.Proofs.Rearranged
import ApiTypes.Proofs.Spelling
import ApiTypes.Proofs.TagOrder
import ApiTypes.Proofs.Typing.Parallel
import ApiTypes.Proofs.Typing.SchemaParallel
import ApiTypes.Proofs.Typing.DocumentParallel
import ApiTypes.Proofs.Alphabetized
import ApiTypes.Proofs.Registry
import ApiTypes.Proofs.Typing.Registrations
import ApiTypes.Proofs.DeclaredOperations
import ApiTypes.Proofs.WellFormed
import ApiTypes.Proofs.Typing.Joins
import ApiTypes.Proofs.Typing.Judgement
import ApiTypes.Proofs.Typing.DocumentJudgement
import ApiTypes.Proofs.Typing.Maintaining
import ApiTypes.Proofs.Typing.Emissions
import ApiTypes.Proofs.OperationIds
import ApiTypes.Proofs.WellFormedDecls
import ApiTypes.Proofs.Utf8
import ApiTypes.Proofs.Reading.Reader
import ApiTypes.Proofs.Reading.Lexemes
import ApiTypes.Proofs.Reading.Grammar
import ApiTypes.Proofs.Reading.Unambiguous
import ApiTypes.Proofs.Places
import ApiTypes.Proofs.Addresses
import ApiTypes.Proofs.Chains
import ApiTypes.Proofs.Boundedness
import ApiTypes.Proofs.Typing.Course
import ApiTypes.Proofs.Typing.SchemaCourse
import ApiTypes.Proofs.Typing.DocumentCourse
import ApiTypes.Proofs.Termination
import ApiTypes.Proofs.Inlining
import ApiTypes.Proofs.NullAlternatives
import ApiTypes.Proofs.Summaries
import ApiTypes.Proofs.ParameterLists
import ApiTypes.Proofs.Rebasing
import ApiTypes.Proofs.Navigation
import ApiTypes.Proofs.ArrayItems
import ApiTypes.Proofs.FreshNames
import ApiTypes.Proofs.NameClashes
import ApiTypes.Proofs.Paths
import ApiTypes.Proofs.FileAccess
import ApiTypes.Proofs.Templates
import ApiTypes.Proofs.Making
import ApiTypes.Proofs.PrintedTypes
import ApiTypes.Proofs.Interleaving
import ApiTypes.Proofs.TupleLengths
import ApiTypes.Proofs.PositionalItems
import ApiTypes.Proofs.TypesLeftOut
import ApiTypes.Proofs.InputPlaces
import ApiTypes.Proofs.Standing
import ApiTypes.Proofs.Typing.Siting
import ApiTypes.Proofs.Typing.DocumentSiting
import ApiTypes.Proofs.InputDefaults
import ApiTypes.Proofs.NullFlag
import ApiTypes.Proofs.AbsentValues
import ApiTypes.Proofs.Typing.Regime
import ApiTypes.Proofs.ReadonlyTypes
import ApiTypes.Proofs.Typing.Abreast
import ApiTypes.Proofs.RequiredKeys
import ApiTypes.Proofs.ReferenceChains
import ApiTypes.Proofs.AliasNames
import ApiTypes.Proofs.MemberNames
import ApiTypes.Proofs.MergedParameters
import ApiTypes.Proofs.OverriddenParameters
import ApiTypes.Proofs.PropertyAccess
import ApiTypes.Proofs.RepeatedSpelling
import ApiTypes.Proofs.CopiedItems
import ApiTypes.Proofs.RebasedLocations
import ApiTypes.Proofs.JoinedTypes
import ApiTypes.Proofs.StatusCodes
import ApiTypes.Proofs.StringLiterals
import ApiTypes.Proofs.DocComments
import ApiTypes.Proofs.PathTemplates
import ApiTypes.Proofs.WordCuts
import ApiTypes.Proofs.MapHistories
