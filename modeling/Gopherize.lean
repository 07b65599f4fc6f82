import Gopherize.Core.Execution
import Gopherize.Core.Store
import Gopherize.Core.Cache
import Gopherize.Core.Rand
import Gopherize.Core.Path
import Gopherize.Core.Ascii
import Gopherize.Core.Choice
import Gopherize.Core.History
import Gopherize.Gopher
import Gopherize.Element
import Gopherize.Preview
import Gopherize.Panel
import Gopherize.Chooser
import Gopherize.World
import Gopherize.Selection
import Gopherize.Outer
import Gopherize.Runtime
import Gopherize.View
import Gopherize.Refinement
import Gopherize.HackConfig
import Gopherize.Runs
import Gopherize.Clicks
import Gopherize.Agreement
import Gopherize.Combinations
import Gopherize.React.Bridge
import Gopherize.Jsx.Preservation
import Gopherize.Html.Tokenize
import Gopherize.Html.Escape
import Gopherize.Html.Accessors
import Gopherize.Html.Plain
