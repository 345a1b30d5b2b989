import DragonCurve.Curve
import DragonCurve.Legend
import DragonCurve.Records
import DragonCurve.Proofs.Stretches
import DragonCurve.Proofs.Cyclic
import DragonCurve.Proofs.Standard
import DragonCurve.Proofs.Extent
import DragonCurve.Proofs.Meanings
import DragonCurve.Proofs.Stopping
import DragonCurve.Proofs.Census
import DragonCurve.Proofs.Trajectory
import DragonCurve.Proofs.Unfolding
import DragonCurve.Proofs.Drift
import DragonCurve.Proofs.Layouts
import DragonCurve.Proofs.Decoding
import DragonCurve.Proofs.Steering
import DragonCurve.Proofs.Writing
import DragonCurve.Proofs.Reversal
import DragonCurve.Proofs.Metric
import DragonCurve.Proofs.EventLog
import DragonCurve.Proofs.Overlay
import DragonCurve.Proofs.Motions
import DragonCurve.Proofs.History
