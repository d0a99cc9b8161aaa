import ClangDb.Main
import ClangDb.Proofs.Config.Reading
import ClangDb.Proofs.Config.RoundTrip
import ClangDb.Proofs.Database.Accounting
import ClangDb.Proofs.Database.Beside
import ClangDb.Proofs.Database.Commutation
import ClangDb.Proofs.Database.Completion
import ClangDb.Proofs.Database.EngineSources
import ClangDb.Proofs.Database.FlatNames
import ClangDb.Proofs.Database.InlineWords
import ClangDb.Proofs.Database.Names
import ClangDb.Proofs.Database.Ownership
import ClangDb.Proofs.Database.Positions
import ClangDb.Proofs.Database.Preservation
import ClangDb.Proofs.Database.Records
import ClangDb.Proofs.Database.References
import ClangDb.Proofs.Database.Refusal
import ClangDb.Proofs.Database.Rerun
import ClangDb.Proofs.Database.Skipping
import ClangDb.Proofs.Database.Validity
import ClangDb.Proofs.Engine.NamedFolder
import ClangDb.Proofs.Engine.Roots
import ClangDb.Proofs.FileStore.Remaking
import ClangDb.Proofs.FileStore.Suffix
import ClangDb.Proofs.Generation.Sequencer
import ClangDb.Proofs.Path.Canonical
import ClangDb.Proofs.Project.DefaultPlace
import ClangDb.Proofs.Project.Faults
import ClangDb.Proofs.Project.Generate
import ClangDb.Proofs.Project.Init
import ClangDb.Proofs.ResponseFile.Arguments
import ClangDb.Proofs.ResponseFile.Conversion
import ClangDb.Proofs.ResponseFile.InlineArguments
import ClangDb.Proofs.ResponseFile.Pairing
import ClangDb.Proofs.ResponseFile.Respelling
import ClangDb.Proofs.Tool.Shown
import ClangDb.Server.Calls
import ClangDb.Server.Resources
