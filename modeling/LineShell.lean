import LineShell.Main
import LineShell.Proofs.AcceptedLines
import LineShell.Proofs.Orders
import LineShell.Proofs.Deliveries
import LineShell.Proofs.Cancellation
import LineShell.Proofs.JobSteps
import LineShell.Proofs.Registry
import LineShell.Proofs.ShellMoves
import LineShell.Proofs.Background
import LineShell.Proofs.AlikeTrees
import LineShell.Proofs.Overwriting
import LineShell.Proofs.StepWorlds
import LineShell.Proofs.Slots
import LineShell.Proofs.Shadows
import LineShell.Proofs.SideBySide
import LineShell.Proofs.CanonicalPaths
import LineShell.Proofs.Reachable
import LineShell.Proofs.WorkingDirectory
import LineShell.Proofs.Finished
import LineShell.Proofs.Removals
import LineShell.Proofs.Bench
import LineShell.Proofs.BenchedFilters
import LineShell.Proofs.Refusals
import LineShell.Proofs.Streaming
import LineShell.Proofs.WordTotals
import LineShell.Proofs.Accumulating
import LineShell.Proofs.DecodedText
import LineShell.Proofs.TextLines
import LineShell.Proofs.BenchedEnds
import LineShell.Proofs.KeptLines
import LineShell.Proofs.Exchanges
import LineShell.Proofs.DealingLaws
import LineShell.Proofs.LinkAttempts
import LineShell.Proofs.ResolvedPaths
import LineShell.Proofs.KillLines
import LineShell.Proofs.SuccessiveDirectories
import LineShell.Proofs.Rewordings
import LineShell.Proofs.Unbegun
import LineShell.Proofs.RejoinedPieces
import LineShell.Proofs.ExitLines
import LineShell.Proofs.ReadLoop
import LineShell.Proofs.PrintedBefore
import LineShell.Proofs.WholeSessions
import LineShell.Proofs.EndedSessions
import LineShell.Proofs.CommandRuns
import LineShell.Proofs.CommandOutcomes
import LineShell.Proofs.FrontEnds
import LineShell.Proofs.UnfedWorkers
import LineShell.Proofs.PassedFrames
