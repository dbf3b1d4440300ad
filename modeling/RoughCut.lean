import RoughCut.Batch
import RoughCut.Main
import RoughCut.Memory
import RoughCut.RawPath
import RoughCut.Settings
import RoughCut.Sidecar
import RoughCut.Storage
import RoughCut.Variables
import RoughCut.Web.Service
import RoughCut.Proofs.CommandOrder
import RoughCut.Proofs.CutStages
import RoughCut.Proofs.FaultIsolation
import RoughCut.Proofs.IdleCommands
import RoughCut.Proofs.InsertedWindow
import RoughCut.Proofs.SegmentClosing
import RoughCut.Proofs.SlateAccounting
import RoughCut.Proofs.Tags
import RoughCut.Proofs.Text.NormalForm
import RoughCut.Proofs.Text.CleanEnds
import RoughCut.Proofs.WindowPlaces
import RoughCut.Proofs.CleanWords
import RoughCut.Proofs.Text.Utf8
import RoughCut.Proofs.Tiling
import RoughCut.Proofs.Extension
import RoughCut.Proofs.Retiming
import RoughCut.Proofs.Json.Grammar
import RoughCut.Proofs.Spelling
import RoughCut.Proofs.Json.Whole
import RoughCut.Proofs.Json.Skipping
import RoughCut.Proofs.Json.Spelled
import RoughCut.Proofs.Json.Dictionary
import RoughCut.Proofs.Json.Once
import RoughCut.Proofs.TranscriptRoutes
import RoughCut.Proofs.Json.Literals
import RoughCut.Proofs.Seconds.Ticks
import RoughCut.Proofs.Seconds.Shortest
import RoughCut.Proofs.Json.Digits
import RoughCut.Proofs.Json.WrittenNumbers
import RoughCut.Proofs.Json.Layout
import RoughCut.Proofs.Json.WrittenShapes
import RoughCut.Proofs.StoredCuts
import RoughCut.Proofs.Schedules
import RoughCut.Proofs.Interleaving
import RoughCut.Proofs.TreeGrowth
import RoughCut.Proofs.SidecarBatches
import RoughCut.Proofs.Json.Scaling
import RoughCut.Proofs.Json.ReadTimes
import RoughCut.Proofs.StoredTimes
import RoughCut.Proofs.Json.ExactScaling
import RoughCut.Proofs.SpokenWords
import RoughCut.Proofs.Casing
import RoughCut.Proofs.BodyLimit
import RoughCut.Proofs.SignedNumbers
import RoughCut.Proofs.Json.Trailing
import RoughCut.Proofs.Json.Parts
import RoughCut.Proofs.Json.FieldTexts
import RoughCut.Proofs.TranscriptForms
import RoughCut.Proofs.OpenedSegments
import RoughCut.Proofs.FootageEnd
import RoughCut.Proofs.Json.FiniteNumbers
import RoughCut.Proofs.Json.TakenTimes
import RoughCut.Proofs.TimeSources
import RoughCut.Proofs.OutputTimes
import RoughCut.Proofs.Json.Refused
import RoughCut.Proofs.Json.Settled
import RoughCut.Proofs.PostedBodies
import RoughCut.Proofs.SegmentSpans
import RoughCut.Proofs.TagAttribution
import RoughCut.Proofs.SceneContext
import RoughCut.Proofs.JobRequests
import RoughCut.Proofs.CutsAsTranscripts
import RoughCut.Proofs.RepeatedRuns
import RoughCut.Proofs.ScanOrder
import RoughCut.Proofs.CommandGrammar
import RoughCut.Proofs.ScanPlaces
import RoughCut.Proofs.Cardinals
import RoughCut.Proofs.PathComponents
import RoughCut.Proofs.SidecarPaths
import RoughCut.Proofs.SpelledPaths
import RoughCut.Proofs.RawPaths
import RoughCut.Proofs.ParentDirectories
import RoughCut.Proofs.StoreEffects
import RoughCut.Proofs.Seconds.Nearest
import RoughCut.Proofs.Seconds.Written
import RoughCut.Proofs.ProbedLengths
import RoughCut.Text.Pattern
import RoughCut.Proofs.Text.Glue
import RoughCut.Proofs.Provenance
import RoughCut.Proofs.RunReports
import RoughCut.Proofs.SharedTrees
import RoughCut.Proofs.ArgumentOrder
