import JamCompiler.Text.Digit
import JamCompiler.Text.Lines
import JamCompiler.Text.Utf8
import JamCompiler.Program
import JamCompiler.Program.Site
import JamCompiler.ValueType
import JamCompiler.Token.Scan
import JamCompiler.Diagnostic
import JamCompiler.Program.Reading
import JamCompiler.Machine.Listing
import JamCompiler.Machine.Buffer
import JamCompiler.ScopeTable
import JamCompiler.Compilation
import JamCompiler.Resolution
import JamCompiler.Typing
import JamCompiler.Generation
import JamCompiler.Backpatching
import JamCompiler.CommandLine
import JamCompiler.Main
import JamCompiler.Proofs.CleanRun
import JamCompiler.Proofs.Frame
import JamCompiler.Proofs.Naming.Use
import JamCompiler.Proofs.Naming.Table
import JamCompiler.Proofs.Naming.References
import JamCompiler.Proofs.Naming.Bodies
import JamCompiler.Proofs.Naming.Methods
import JamCompiler.Proofs.Naming.Registries
import JamCompiler.Proofs.Naming.Programs
import JamCompiler.Proofs.Stages
import JamCompiler.Proofs.Naming.Completeness
import JamCompiler.Proofs.Binding
import JamCompiler.Proofs.Typing.Types
import JamCompiler.Proofs.Emission.Runs
import JamCompiler.Proofs.Emission.Objects
import JamCompiler.Proofs.Accepted
import JamCompiler.Proofs.Emission.Ranges
import JamCompiler.Proofs.Emission.Items
import JamCompiler.Proofs.Returns
import JamCompiler.Proofs.Typing.Values
import JamCompiler.Proofs.Emission.Control
import JamCompiler.Proofs.ControlFlow
import JamCompiler.Proofs.Patches
import JamCompiler.Proofs.Backpatching
import JamCompiler.Proofs.Emission.Calls
import JamCompiler.Proofs.Emission.Building
import JamCompiler.Proofs.Emission.Ready
import JamCompiler.Proofs.Emission.Placement
import JamCompiler.Proofs.Emission.Fields
import JamCompiler.Proofs.Generating
import JamCompiler.Proofs.Emission.Depth
import JamCompiler.Proofs.Emission.Effects
import JamCompiler.Proofs.StackDepth
import JamCompiler.Proofs.Preservation
import JamCompiler.Proofs.Order.Bindings
import JamCompiler.Proofs.Language
import JamCompiler.Proofs.RoundTrip
import JamCompiler.Proofs.Checking
import JamCompiler.Proofs.ClassOrder
import JamCompiler.Proofs.Scoping
import JamCompiler.Proofs.Access
import JamCompiler.Proofs.Layout
import JamCompiler.Proofs.Renaming
import JamCompiler.Proofs.FailFast
import JamCompiler.Proofs.Rechecking
import JamCompiler.Proofs.Naming.SecondRun
import JamCompiler.Proofs.Naming.SecondLook
import JamCompiler.Proofs.Naming.SecondVisit
import JamCompiler.Proofs.Naming.Collecting
import JamCompiler.Proofs.Naming.SecondClasses
import JamCompiler.Proofs.ResolvedAgain
import JamCompiler.Proofs.Emission.Pieces
import JamCompiler.Proofs.Emission.Slots
import JamCompiler.Proofs.FrameSlots
import JamCompiler.Proofs.Emission.Allocation
import JamCompiler.Proofs.Results
import JamCompiler.Proofs.Running.Arguments
import JamCompiler.Proofs.Running.Files
import JamCompiler.Proofs.Running.Listings
import JamCompiler.Proofs.Running.Runs
import JamCompiler.Proofs.Endings
import JamCompiler.Proofs.FileEffects
import JamCompiler.Proofs.FieldLayout
import JamCompiler.Proofs.Typing.Locality
import JamCompiler.Proofs.Typing.Compatibility
import JamCompiler.Proofs.Typing.StandIns
import JamCompiler.Proofs.Typing.Holes
import JamCompiler.Proofs.Typing.Absorption
import JamCompiler.Proofs.Containment
import JamCompiler.Proofs.Naming.Chains
import JamCompiler.Proofs.ScopeLaws
import JamCompiler.Proofs.Scanning.Lexemes
import JamCompiler.Proofs.Tiling
import JamCompiler.Proofs.Separation
import JamCompiler.Proofs.LineCounting
import JamCompiler.Proofs.Naming.FirstDeclarations
import JamCompiler.Proofs.Collection
import JamCompiler.Proofs.Carets
import JamCompiler.Proofs.Recovery
import JamCompiler.Proofs.Strings
import JamCompiler.Proofs.Positions
import JamCompiler.Proofs.Places
import JamCompiler.Proofs.ListingPaths
import JamCompiler.Proofs.MemberOrder
import JamCompiler.Proofs.ScopeBalance
