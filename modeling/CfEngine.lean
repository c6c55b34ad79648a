import CfEngine.Libpromises.Assoc.Refinement
import CfEngine.Libpromises.EnvContext.VariableStore
import CfEngine.Libpromises.Expand.Combinations
import CfEngine.Libpromises.Iteration
import CfEngine.Libpromises.EvalFunction
import CfEngine.Libpromises.EvalFunction.NullValues
import CfEngine.Libpromises.StringExpressions
import CfEngine.Libpromises.StringExpressions.Grammar
import CfEngine.Libpromises.LogicExpressions
import CfEngine.Libpromises.LogicExpressions.Grammar
import CfEngine.Libpromises.EnvContext.Classes
import CfEngine.Libpromises.FilesNames
import CfEngine.Libpromises.EnvContext.ClassStore
import CfEngine.Libpromises.EnvContext.ClassDeletion
import CfEngine.Libpromises.EnvContext.PersistentClasses
import CfEngine.Libcfnet.Net
import CfEngine.Libpromises.EnvContext.FrameStack
import CfEngine.Libpromises.EnvContext.ScopeCalls
import CfEngine.Libcfnet.Net.Delivery
import CfEngine.CfServerd.AccessControl
import CfEngine.Library.Traced
import CfEngine.CfServerd.Connection
import CfEngine.CfServerd.Transfer
import CfEngine.CfServerd.Transfer.Content
import CfEngine.CfServerd.Authentication
import CfEngine.CfServerd.Replies
import CfEngine.CfServerd.BusyWithConnection
import CfEngine.CfServerd.BusyWithConnection.Stable
import CfEngine.CfServerd.BusyWithConnection.Asked
import CfEngine.CfServerd.BusyWithConnection.Dialogue
import CfEngine.CfServerd.BusyWithConnection.Permitted
import CfEngine.CfServerd.BusyWithConnection.Commands
import CfEngine.CfServerd.BusyWithConnection.Sessions
import CfEngine.CfServerd.BusyWithConnection.Hostname
import CfEngine.CfServerd.BusyWithConnection.Username
import CfEngine.Libutils.Json
import CfEngine.Libutils.Json.Parsing
import CfEngine.Libutils.Json.Strings
import CfEngine.Libutils.Json.Tokens
import CfEngine.Libutils.Json.Numbers
import CfEngine.Libutils.Json.Printing
import CfEngine.Libutils.Json.Grammar
import CfEngine.Libutils.Json.Acceptance
import CfEngine.CfServerd.Listing
import CfEngine.CfServerd.CopyRegularFile
import CfEngine.Libutils.Buffer
import CfEngine.Libutils.Buffer.WellFormed
import CfEngine.Libutils.Buffer.Terminator
import CfEngine.Library.Linked
import CfEngine.Libutils.List
import CfEngine.Libutils.List.WellFormed
import CfEngine.Libutils.List.Isolation
import CfEngine.Libutils.List.Runs
import CfEngine.Library.Entries
import CfEngine.Libutils.Map
import CfEngine.Libutils.Map.Refinement
import CfEngine.Libpromises.DbmApi
import CfEngine.Libpromises.LastSeen
import CfEngine.Libpromises.LastSeen.Deletion
import CfEngine.Libpromises.Locks
import CfEngine.Libpromises.Locks.Exclusion
import CfEngine.Libpromises.Locks.PromiseHash
import CfEngine.Libpromises.ItemLib
import CfEngine.CfAgent.FilesEditline
import CfEngine.CfAgent.FilesEditline.Deletion
import CfEngine.Libpromises.ItemLib.Lists
import CfEngine.CfAgent.FilesEditline.Insertion
import CfEngine.CfAgent.FilesEditline.Blocks
import CfEngine.CfAgent.FilesEditline.Regions
import CfEngine.Library.Regex
import CfEngine.Libutils.StringMatch
import CfEngine.Libpromises.Matching.MatchPolicy
import CfEngine.Libutils.IpAddress
import CfEngine.Library.Fields
import CfEngine.Libutils.IpAddress.RoundTrip
import CfEngine.CfAgent.Vercmp
import CfEngine.Libpromises.Policy
import CfEngine.Libpromises.Policy.Json
import CfEngine.Libpromises.Policy.Json.Values
import CfEngine.Libpromises.Policy.Json.RoundTrip
import CfEngine.Libpromises.Policy.Json.Preservation
import CfEngine.Libpromises.Policy.Json.Contexts
import CfEngine.CfAgent.VerifyFilesHashes
import CfEngine.CfAgent.VerifyFilesHashes.History
import CfEngine.Libpromises.FilesInterfaces
import CfEngine.Libpromises.FilesLib
import CfEngine.CfAgent.FilesOperators
import CfEngine.Libpromises.DbmMigration
import CfEngine.Libpromises.DbmMigration.LastSeen
import CfEngine.Libpromises.FilesCopy
import CfEngine.Libutils.Buffer.Contents
import CfEngine.CfServerd.AccessControl.Contexts
import CfEngine.CfServerd.AccessControl.Roles
import CfEngine.CfServerd.Exec.Options
import CfEngine.CfServerd.Exec.SafeArgs
import CfEngine.Library.Moves
import CfEngine.Libpromises.DbmMigration.Resumption
import CfEngine.CfAgent.AclPosix
import CfEngine.CfAgent.AclPosix.Modes
import CfEngine.CfServerd.ServerTransform
import CfEngine.CfServerd.ServerTransform.Access
import CfEngine.CfServerd.ServerTransform.Promises
import CfEngine.CfServerd.Authentication.Accesses
import CfEngine.CfServerd.Authentication.Bounds
import CfEngine.CfAgent.AclPosix.Aces
import CfEngine.Library.Masking
import CfEngine.CfAgent.AclPosix.ModeChanges
import CfEngine.CfAgent.AclPosix.Convergence
import CfEngine.Libutils.Buffer.Printf
import CfEngine.Libpromises.VarExpressions.RoundTrip
import CfEngine.Libpromises.Rlist.ParsingMachine
import CfEngine.Libpromises.Rlist.Splitting
import CfEngine.Libpromises.VarExpressions.Indices
import CfEngine.Libpromises.Rlist.Shown
import CfEngine.Library.Levels
import CfEngine.Libpromises.Rlist.Flattening
import CfEngine.Libutils.Sequence
import CfEngine.Libutils.Json.Integers
import CfEngine.Libutils.IpAddress.IPV4Texts
import CfEngine.Libutils.IpAddress.IPV6Runs
import CfEngine.Libutils.IpAddress.IPV6Texts
import CfEngine.Libutils.IpAddress.IPV6Soundness
import CfEngine.Libutils.IpAddress.IPV6Completeness
import CfEngine.Libpromises.AddrLib
import CfEngine.Libpromises.AddrLib.DottedQuad
import CfEngine.Libpromises.AddrLib.Validator
import CfEngine.Libpromises.AddrLib.IPV4Ranges
import CfEngine.Libpromises.AddrLib.IPV6Ranges
import CfEngine.Libpromises.Matching.Whitespace
import CfEngine.Libpromises.Matching.PolicyPieces
import CfEngine.Libpromises.Matching.PolicyTexts
import CfEngine.Libpromises.Matching.IgnoredWhitespace
import CfEngine.CfAgent.Vercmp.Numerals
import CfEngine.Libpromises.LastSeen.Coherence
import CfEngine.Libpromises.Modes
import CfEngine.Libpromises.Modes.Contexts
import CfEngine.Libpromises.Modes.Acceptance
import CfEngine.Libpromises.Modes.Sequences
import CfEngine.Libpromises.Modes.WellFormed
import CfEngine.Libpromises.Conversion
import CfEngine.CfAgent.VerifyAcl.Syntax
import CfEngine.CfAgent.FilesEditline.Replacement
import CfEngine.CfAgent.FilesEditline.Columns
import CfEngine.CfAgent.FilesEditline.Fields
import CfEngine.CfAgent.FilesSelect
import CfEngine.CfAgent.FilesSelect.Criteria
import CfEngine.Libpromises.Conversion.Months
import CfEngine.Libpromises.ExecTools
import CfEngine.Libpromises.Sort
import CfEngine.Libpromises.Syntax
import CfEngine.CfAgent.FilesLinks
import CfEngine.Library.Csv
import CfEngine.Libutils.CsvWriter
import CfEngine.Libpromises.LogicExpressions.Bounds
import CfEngine.Library.FileTrees
import CfEngine.CfAgent.FilesLinks.ExpandLinks
import CfEngine.CfServerd.FileExchange
import CfEngine.Libcfnet.ClientCode.Connections
import CfEngine.CfServerd.Authentication.Agreement
import CfEngine.CfServerd.ServerEntryPoint
