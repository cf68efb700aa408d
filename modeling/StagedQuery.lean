import StagedQuery.Backend
import StagedQuery.Cli.Arguments
import StagedQuery.Cli.Conversion
import StagedQuery.Cli.Manual
import StagedQuery.Cli.Problem
import StagedQuery.Cli.Program
import StagedQuery.Condensation
import StagedQuery.Cycle
import StagedQuery.Dataset
import StagedQuery.Declaration
import StagedQuery.Expansion
import StagedQuery.Fault
import StagedQuery.Inputs
import StagedQuery.Json.Fault
import StagedQuery.Json.Layout
import StagedQuery.Json.Literal
import StagedQuery.Json.Numeral
import StagedQuery.Json.Reader
import StagedQuery.Json.Record
import StagedQuery.Json.Token
import StagedQuery.Json.Tree
import StagedQuery.Main
import StagedQuery.Proofs.Aliases
import StagedQuery.Proofs.Authored
import StagedQuery.Proofs.Condensation
import StagedQuery.Proofs.Cycle
import StagedQuery.Proofs.Dataset
import StagedQuery.Proofs.Declaration
import StagedQuery.Proofs.Expansion
import StagedQuery.Proofs.Growth
import StagedQuery.Proofs.Naming
import StagedQuery.Proofs.Occurrence
import StagedQuery.Proofs.Recovery
import StagedQuery.Proofs.Reexpansion
import StagedQuery.Proofs.Renumbering
import StagedQuery.Proofs.Retargeting
import StagedQuery.Proofs.Scope
import StagedQuery.Proofs.SecondRound
import StagedQuery.Proofs.StageInputs
import StagedQuery.Scope
import StagedQuery.Session
import StagedQuery.StageId
import StagedQuery.Surface
import StagedQuery.Text.Blank
import StagedQuery.Text.LowerCase
import StagedQuery.Text.Mention
import StagedQuery.Text.Stem
import StagedQuery.Wire.Backend
import StagedQuery.Wire.Surface
import StagedQuery.Proofs.Denotation
import StagedQuery.Proofs.Refusal
import StagedQuery.Proofs.Document
import StagedQuery.Proofs.WellFormed
import StagedQuery.Proofs.Wire
import StagedQuery.Proofs.Conversion
import StagedQuery.Proofs.Cut
import StagedQuery.Proofs.IndexedScope
import StagedQuery.Proofs.Rejection
import StagedQuery.Proofs.Collision
import StagedQuery.Proofs.ImpliedInput
import StagedQuery.Proofs.UnusedName
import StagedQuery.Proofs.StageEffect
import StagedQuery.Proofs.Reference
import StagedQuery.Proofs.StagePosition
import StagedQuery.Proofs.Asking
import StagedQuery.Proofs.Fields
import StagedQuery.Proofs.Mention
import StagedQuery.Proofs.Node
import StagedQuery.Proofs.Presentation
