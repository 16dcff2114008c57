import ShotTiming.Proofs.Compile.Period
import ShotTiming.Proofs.Session.Timing
import ShotTiming.Proofs.Session.Tree
import ShotTiming.Proofs.Session.Clocks
import ShotTiming.Proofs.Session.Gate
import ShotTiming.Proofs.Compile.Outcome
import ShotTiming.Proofs.Shot.Renumber
import ShotTiming.Proofs.Compile.Reorder
import ShotTiming.Proofs.Compile.Entering
import ShotTiming.Proofs.Compile.Start
import ShotTiming.Proofs.Session.Frozen
import ShotTiming.Proofs.Session.Lists
import ShotTiming.Proofs.Session.Resolution
import ShotTiming.Proofs.Validation.Report
import ShotTiming.Proofs.Validation.Conflicts
import ShotTiming.Proofs.Validation.Gaps
import ShotTiming.Proofs.Validation.Runs
import ShotTiming.Proofs.Compile.Batch
import ShotTiming.Proofs.Compile.Limits
import ShotTiming.Proofs.Compile.Attributes
import ShotTiming.Proofs.Compile.Sampling
import ShotTiming.Proofs.Session.Grids
import ShotTiming.Proofs.Session.Nominal
import ShotTiming.Proofs.Validation.Samples
import ShotTiming.Proofs.Settings.Refused
import ShotTiming.Proofs.Session.Log
import ShotTiming.Proofs.Session.Tally
import ShotTiming.Proofs.Compile.Record
import ShotTiming.Proofs.Compile.LinePeriod
