import ClassHooks.Body.Validation
import ClassHooks.Build.Run
import ClassHooks.Hook.Callback
import ClassHooks.Proofs.Body.Orderly
import ClassHooks.Proofs.Body.Predicting
import ClassHooks.Proofs.Body.Redecoding
import ClassHooks.Proofs.Build.Abandoning
import ClassHooks.Proofs.Build.Containing
import ClassHooks.Proofs.Build.Delivery
import ClassHooks.Proofs.Build.Likeness
import ClassHooks.Proofs.Build.Rejecting
import ClassHooks.Proofs.Build.ReturnSites
import ClassHooks.Proofs.Build.Succeeding
import ClassHooks.Proofs.Code.Shortening
import ClassHooks.Proofs.Descriptor.Cursor
import ClassHooks.Proofs.Files.Touring
import ClassHooks.Proofs.Files.Walking
import ClassHooks.Proofs.Hook.Account
import ClassHooks.Proofs.Hook.Counting
import ClassHooks.Proofs.Hook.Failing
import ClassHooks.Proofs.Hook.Machine
import ClassHooks.Proofs.Hook.Repetition
import ClassHooks.Proofs.Hook.Reporting
import ClassHooks.Proofs.Hook.Soundness
import ClassHooks.Proofs.Hook.Tracking
import ClassHooks.Proofs.Instruction.Completeness
import ClassHooks.Proofs.Instruction.Grammar
import ClassHooks.Proofs.Limits
import ClassHooks.Proofs.Pool.History
import ClassHooks.Proofs.Pool.Lasting
import ClassHooks.Proofs.Weaving.Carrying
import ClassHooks.Proofs.Weaving.Counting
import ClassHooks.Proofs.Weaving.Depths
import ClassHooks.Proofs.Weaving.Events
import ClassHooks.Proofs.Weaving.Repeating
import ClassHooks.Proofs.Weaving.Resting
import ClassHooks.Proofs.Weaving.Rewriting
import ClassHooks.Proofs.Weaving.Unit
import ClassHooks.Text.Quoted
