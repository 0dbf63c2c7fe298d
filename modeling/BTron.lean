import BTron.Lib.Logged
import BTron.Lib.Utf8
import BTron.Lib.Run
import BTron.Lib.Search
import BTron.Lib.CString
import BTron.Lib.DList
import BTron.Lib.Blocks
import BTron.Lib.Memory
import BTron.Types
import BTron.Libstr
import BTron.Libstr.Represents
import BTron.Libstr.Spec
import BTron.Libstr.Runs
import BTron.TadBrowser
import BTron.TadBrowser.Progress
import BTron.TadBrowser.Reads
import BTron.TadBrowser.Document
import BTron.TadBrowser.Text
import BTron.TadBrowser.ParseText
import BTron.TadBrowser.Lines
import BTron.TronCode
import BTron.TronCode.RoundTrip
import BTron.Html2tad
import BTron.Html2tad.Segments
import BTron.Html2tad.Attributes
import BTron.Html2tad.SymbolicLines
import BTron.Html2tad.ReadsBack
import BTron.IpcMsg.Waiting
import BTron.Semaphore.Conservation
import BTron.FsRecord.Atomicity
import BTron.FsRecord.Lifetimes
import BTron.Tip.Converted
import BTron.Tip.Ports
import BTron.Task.Wakeups
import BTron.Task.Slots
import BTron.Process.Pids
import BTron.Window.Interactions
import BTron.Window.Painting
import BTron.Editor.Clicks
import BTron.Editor.Modified
import BTron.ChatXml.RoundTrip
import BTron.Event.Fifo
import BTron.Device.Fifo
import BTron.MemMgr.Blocks
import BTron.Tracker.Hover
import BTron.AppMenu.Presses
import BTron.TadBrowser.History
import BTron.TadBrowser.Browser
import BTron.Chat.Presence
import BTron.Desktop.References
import BTron.GlobalMenu.Rows
import BTron.Hmi.Panels
import BTron.Window.Focus
import BTron.Window.Hosted
import BTron.Mozc.UserFile
import BTron.Libstr.Requests
import BTron.TadBrowser.Kinsoku
import BTron.TadBrowser.Paint
import BTron.Apps.Desk
import BTron.Gif.Codes
import BTron.Gif.RoundTrip
import BTron.Png.Safety
import BTron.Tibetan.Wylie
import BTron.Mozc.Halfwidth
import BTron.Tibetan.Candidates
import BTron.Editor.Files
import BTron.Editor.CutPaste
import BTron.Window.List
import BTron.Window.Geometry
import BTron.Window.Tiling
import BTron.Graphics.Clipping
import BTron.Libstr.Agreement
import BTron.Libstr.Memmove
import BTron.Hmi.FocusRing
import BTron.Hmi.Painted
import BTron.Apps.Transcripts
import BTron.Gterm.History
import BTron.Window.MenuChoice
import BTron.Cabinet.Order
import BTron.TronCode.TextWidths
import BTron.TadBrowser.Viewport
import BTron.TKernel.Semaphore
import BTron.TKernel.EventFlag
import BTron.TKernel.Mailbox
import BTron.TKernel.MessageBuffer
