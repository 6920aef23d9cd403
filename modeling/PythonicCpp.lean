import PythonicCpp.Machine.Basic
import PythonicCpp.Machine.Memory
import PythonicCpp.Machine.Checked
import PythonicCpp.Machine.Runs
import PythonicCpp.Machine.Ends
import PythonicCpp.Machine.Cells
import PythonicCpp.Machine.Blocks
import PythonicCpp.Machine.Slots
import PythonicCpp.Machine.Words
import PythonicCpp.Machine.Requests
import PythonicCpp.Machine.Refines
import PythonicCpp.Scan.Leftmost
import PythonicCpp.Scan.Occurs
import PythonicCpp.Scan.LastUnit
import PythonicCpp.Scan.LeadCode
import PythonicCpp.Scan.Malformed
import PythonicCpp.Scan.Expand
import PythonicCpp.Text.Span
import PythonicCpp.Text.CodePoints
import PythonicCpp.Text.Utf8
import PythonicCpp.Text.Partition
import PythonicCpp.Search.FindView
import PythonicCpp.Search.Next
import PythonicCpp.Search.Steps
import PythonicCpp.Search.Finditer
import PythonicCpp.Search.Reads
import PythonicCpp.Search.Skip
import PythonicCpp.Search.Find
import PythonicCpp.Search.StringFind
import PythonicCpp.Search.Cursors
import PythonicCpp.Search.CodePoints
import PythonicCpp.Edit.Sub
import PythonicCpp.Edit.LastPos
import PythonicCpp.Edit.EndsWith
import PythonicCpp.Edit.ExpandTabs
import PythonicCpp.Edit.Center
import PythonicCpp.Edit.Capitalize
import PythonicCpp.Store.Core
import PythonicCpp.Store.Shows
import PythonicCpp.Store.Layout
import PythonicCpp.Store.Room
import PythonicCpp.Store.Requests
import PythonicCpp.Store.FbString
import PythonicCpp.Store.Methods
import PythonicCpp.Store.Functions
import PythonicCpp.Store.Results
import PythonicCpp.Store.Replace
import PythonicCpp.Store.Growth
import PythonicCpp.Store.Lifetimes
import PythonicCpp.Store.World
import PythonicCpp.Store.Sane
import PythonicCpp.Store.Calls
import PythonicCpp.Store.Values
import PythonicCpp.Store.Owned
import PythonicCpp.Store.Returned
