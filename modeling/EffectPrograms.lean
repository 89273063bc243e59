import EffectPrograms.Accounts.Authorization
import EffectPrograms.Accounts.ChangeEmail
import EffectPrograms.Accounts.Errors
import EffectPrograms.Accounts.Responses
import EffectPrograms.Accounts.UserRecords
import EffectPrograms.Algebra
import EffectPrograms.Algebra.Typed
import EffectPrograms.CommandLine.Command
import EffectPrograms.CommandLine.Options
import EffectPrograms.CommandLine.Report
import EffectPrograms.Entries
import EffectPrograms.Environment
import EffectPrograms.Execution
import EffectPrograms.Execution.Concurrent
import EffectPrograms.Execution.Record
import EffectPrograms.Execution.Resolve
import EffectPrograms.Execution.Run
import EffectPrograms.Execution.Step
import EffectPrograms.ExecutionId
import EffectPrograms.Fault
import EffectPrograms.Files.Backends
import EffectPrograms.Files.CloudFiles
import EffectPrograms.Files.Http
import EffectPrograms.Files.Log
import EffectPrograms.Files.SaveFile
import EffectPrograms.Interpreter
import EffectPrograms.Io
import EffectPrograms.Main
import EffectPrograms.Number
import EffectPrograms.Number.Double
import EffectPrograms.Number.Shortest
import EffectPrograms.Program
import EffectPrograms.Proofs.Accounts.Serving
import EffectPrograms.Proofs.Accounts.Stages
import EffectPrograms.Proofs.Accounts.Together
import EffectPrograms.Proofs.Acts
import EffectPrograms.Proofs.Adequacy
import EffectPrograms.Proofs.Answers
import EffectPrograms.Proofs.Branches
import EffectPrograms.Proofs.Calls
import EffectPrograms.Proofs.Collisions
import EffectPrograms.Proofs.Constructors
import EffectPrograms.Proofs.Continuation
import EffectPrograms.Proofs.Course
import EffectPrograms.Proofs.Decoding
import EffectPrograms.Proofs.DepthLimit
import EffectPrograms.Proofs.Dialogue
import EffectPrograms.Proofs.Discarding
import EffectPrograms.Proofs.Driving
import EffectPrograms.Proofs.Enclosure
import EffectPrograms.Proofs.EquivalentAnswers
import EffectPrograms.Proofs.Evaluation
import EffectPrograms.Proofs.Expansion
import EffectPrograms.Proofs.Failures
import EffectPrograms.Proofs.FanOut
import EffectPrograms.Proofs.Files.Forms
import EffectPrograms.Proofs.Files.Saving
import EffectPrograms.Proofs.Forests
import EffectPrograms.Proofs.Groupings
import EffectPrograms.Proofs.Handles
import EffectPrograms.Proofs.Histories
import EffectPrograms.Proofs.Interleaving
import EffectPrograms.Proofs.LifeCycle
import EffectPrograms.Proofs.Likeness
import EffectPrograms.Proofs.Lockstep
import EffectPrograms.Proofs.Logged
import EffectPrograms.Proofs.Mentions
import EffectPrograms.Proofs.NameChecks
import EffectPrograms.Proofs.Names
import EffectPrograms.Proofs.Printing
import EffectPrograms.Proofs.Records
import EffectPrograms.Proofs.Registration
import EffectPrograms.Proofs.Regrouping
import EffectPrograms.Proofs.Remainder
import EffectPrograms.Proofs.Renaming
import EffectPrograms.Proofs.Replacement
import EffectPrograms.Proofs.Resolving
import EffectPrograms.Proofs.Routing
import EffectPrograms.Proofs.Rows
import EffectPrograms.Proofs.Runs
import EffectPrograms.Proofs.Session
import EffectPrograms.Proofs.Settings.Loading
import EffectPrograms.Proofs.Settings.Reading
import EffectPrograms.Proofs.Settings.Skipping
import EffectPrograms.Proofs.Shadows
import EffectPrograms.Proofs.Soundness
import EffectPrograms.Proofs.Spelling
import EffectPrograms.Proofs.Steps
import EffectPrograms.Proofs.TailExpandingHandlers
import EffectPrograms.Proofs.TailExpansion
import EffectPrograms.Proofs.Termination
import EffectPrograms.Proofs.Tokens
import EffectPrograms.Proofs.Unfolding
import EffectPrograms.Proofs.Wrapping
import EffectPrograms.Registry
import EffectPrograms.Request
import EffectPrograms.Services.Database
import EffectPrograms.Services.Slot
import EffectPrograms.Services.Stub
import EffectPrograms.Settings
import EffectPrograms.Settings.Reader
import EffectPrograms.Settings.Storage
import EffectPrograms.Storage.Access
import EffectPrograms.Storage.Path
import EffectPrograms.Text.Place
import EffectPrograms.Text.Quoted
import EffectPrograms.Text.Shown
import EffectPrograms.Value
import EffectPrograms.Value.Decode
import EffectPrograms.Value.Printer
import EffectPrograms.Value.Reader
