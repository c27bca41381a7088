import Ish.Denv.Trust
import Ish.Denv.Precedence
import Ish.HistoryLog.Damage
import Ish.Quarantine.Safety
import Ish.History.Nearest
import Ish.History.Recall
import Ish.History.Positions
import Ish.Editor.HistorySearch
import Ish.Editor.LineSafety
import Ish.Editor.NameLines
import Ish.Editor.CompletedNames
import Ish.Fs.Refinement
import Ish.Input.Framing
import Ish.Input.Waiting
import Ish.Index.Faithful
import Ish.Epsh.ErrexitRun
import Ish.Dispatch.Gate
import Ish.Epsh.ArithVariables
import Ish.Epsh.Scopes
import Ish.Epsh.Positional
import Ish.Epsh.Evaluators
import Ish.Editor.Selection
import Ish.Capture.Relay
import Ish.Fs.Canonical
import Ish.Index.Deletion
import Ish.Fs.Groups
import Ish.Editor.Continuation
import Ish.Epsh.Jumps
import Ish.Epsh.ChildEnvironment
import Ish.Epsh.Getopts
import Ish.Epsh.ReadLine
import Ish.Epsh.ParameterNames
import Ish.Epsh.ChildReports
import Ish.Epsh.TestCmd
import Ish.Epsh.Lookup
