import Gatehouse.Broker.Scripted
import Gatehouse.Main
import Gatehouse.Proofs.Broker.Exchanges
import Gatehouse.Proofs.Files.PathOrder
import Gatehouse.Proofs.Files.Deletion
import Gatehouse.Proofs.Glob.Deletion
import Gatehouse.Proofs.Files.Listing
import Gatehouse.Proofs.Glob.Escape
import Gatehouse.Proofs.Glob.Listing
import Gatehouse.Proofs.Login.Course
import Gatehouse.Proofs.Json.Members
import Gatehouse.Proofs.Access.Literal
import Gatehouse.Proofs.Access.Language
import Gatehouse.Proofs.Acl.Openings
import Gatehouse.Proofs.Acl.Unloadable
import Gatehouse.Proofs.Broker.Rights
import Gatehouse.Proofs.Login.Access
import Gatehouse.Proofs.Uci.Readings
import Gatehouse.Proofs.Uci.Unnamed
import Gatehouse.Proofs.Config.Precedence
import Gatehouse.Proofs.Text.Lines
import Gatehouse.Proofs.Uci.WellFormed
import Gatehouse.Proofs.Uci.Written
import Gatehouse.Proofs.Uci.Additions
import Gatehouse.Proofs.Uci.Merging
import Gatehouse.Proofs.Uci.Updates
import Gatehouse.Proofs.Uci.Confinement
import Gatehouse.Proofs.Json.RoundTrip
import Gatehouse.Proofs.Broker.Wire
import Gatehouse.Proofs.CommandLine.DryRun
import Gatehouse.Proofs.CommandLine.Check
import Gatehouse.Proofs.Login.Gate
import Gatehouse.Proofs.Login.Visibility
import Gatehouse.Proofs.Login.AddedRights
import Gatehouse.Proofs.Login.OtherUsers
import Gatehouse.Proofs.Broker.History
import Gatehouse.Proofs.Broker.SideBySide
import Gatehouse.Proofs.Broker.Steady
import Gatehouse.Proofs.Login.Concurrent
import Gatehouse.Proofs.Login.Unloadable
import Gatehouse.Proofs.Acl.Reordered
import Gatehouse.Proofs.Login.Reordered
import Gatehouse.Proofs.CommandLine.Output
import Gatehouse.Proofs.CommandLine.Listing
import Gatehouse.Proofs.Acl.Segments
import Gatehouse.Proofs.Uci.BadLines
import Gatehouse.Proofs.Uci.Grammar
import Gatehouse.Proofs.Acl.Levels
import Gatehouse.Proofs.Acl.Noise
import Gatehouse.Proofs.Acl.Listing
import Gatehouse.Proofs.Acl.Hidden
import Gatehouse.Proofs.Login.Listed
import Gatehouse.Proofs.Broker.TimeLimit
import Gatehouse.Proofs.Broker.Replies
