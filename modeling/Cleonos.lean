import Cleonos.Boot.Blocks
import Cleonos.Boot.Digits
import Cleonos.Boot.ExitBoot
import Cleonos.Boot.Mapped
import Cleonos.Browser.Dns
import Cleonos.Browser.Forms
import Cleonos.Browser.Requests
import Cleonos.Browser.Scanning
import Cleonos.Browser.Visibility
import Cleonos.Browser.Wrapping
import Cleonos.Calc.Complete
import Cleonos.Calc.Ranges
import Cleonos.Compat.MemFd
import Cleonos.Compat.PushBack
import Cleonos.Compat.Qsort
import Cleonos.Compat.Rename
import Cleonos.Contacts.Model
import Cleonos.Doom.HeapSafety
import Cleonos.Editor.Characters
import Cleonos.Editor.Line
import Cleonos.Editor.Navigation
import Cleonos.Editor.Tab
import Cleonos.Explorer.Listing
import Cleonos.Filters.HeadTail
import Cleonos.Filters.SortUniq
import Cleonos.Font.Psf
import Cleonos.Heap.Coalesce
import Cleonos.Httpd.Responses
import Cleonos.Imgview.Tiled
import Cleonos.Install.DryRun
import Cleonos.Install.Verified
import Cleonos.Kconfig.Outputs
import Cleonos.Libc.Integers
import Cleonos.Libc.Memory
import Cleonos.Libc.Strings
import Cleonos.Libc.Time
import Cleonos.Lua.Formatting
import Cleonos.Lua.Streams
import Cleonos.Notes.Note
import Cleonos.Notes.Todo
import Cleonos.Partctl.WellFormed
import Cleonos.Remote.Model
import Cleonos.Shell.AllOrNothing
import Cleonos.Shell.Guard
import Cleonos.Shell.Parse
import Cleonos.Sqlite.Locks
import Cleonos.Termbox.Display
import Cleonos.Termbox.Events
import Cleonos.Terminal.Motion
import Cleonos.Terminal.Scroll
import Cleonos.Terminal.Window
import Cleonos.UserDb.LocalEdit
import Cleonos.UserDb.Login
import Cleonos.Uwm.Clicks
import Cleonos.Vim.RoundTrip
import Cleonos.Vim.Typing
import Cleonos.WebConsole.Links
import Cleonos.Wget.Cuts
import Cleonos.Wget.Encodings
import Cleonos.Zip.RoundTrip
