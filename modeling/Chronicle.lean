import Chronicle.Directory
import Chronicle.Lanes
import Chronicle.Main
import Chronicle.Proofs.Denotation
import Chronicle.Proofs.Segmentation
import Chronicle.Proofs.Acceptance
import Chronicle.Proofs.EventOrder
import Chronicle.Proofs.Independence
import Chronicle.Proofs.JoinedPaths
import Chronicle.Proofs.Snapshots
import Chronicle.Proofs.LaneSlots
import Chronicle.Proofs.LaneWrites
import Chronicle.Proofs.CleanLanes
import Chronicle.Proofs.RecordedPast
import Chronicle.Proofs.SlotAllocation
import Chronicle.Proofs.KeptWindows
import Chronicle.Proofs.JsonDocuments
import Chronicle.Proofs.JsonForms
import Chronicle.Proofs.StreamLines
import Chronicle.Proofs.WrittenStreams
import Chronicle.Proofs.AbortedReplays
import Chronicle.Proofs.ReplayCounts
import Chronicle.Proofs.ShuffledTrees
import Chronicle.Proofs.JsonRecords
import Chronicle.Proofs.PersistedState
import Chronicle.Proofs.LinearScans
import Chronicle.Proofs.Exports
import Chronicle.Proofs.WindowContents
import Chronicle.Proofs.TreeListings
import Chronicle.Proofs.PathCreation
import Chronicle.Proofs.Resolutions
import Chronicle.Proofs.PathTexts
import Chronicle.Proofs.Patterns
import Chronicle.Proofs.Subtrees
import Chronicle.Proofs.CsvTables
import Chronicle.Proofs.AtomicLanes
import Chronicle.Proofs.CsvReading
import Chronicle.Proofs.StreamItems
import Chronicle.Proofs.StoreRefusals
import Chronicle.Proofs.CheckedCalls
import Chronicle.Proofs.CheckedReplays
import Chronicle.Proofs.UnbrokenCalls
import Chronicle.Proofs.RunOutcomes
