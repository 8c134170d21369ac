import Chatcurse.Td
import Chatcurse.Store
import Chatcurse.EventQueue
import Chatcurse.History
import Chatcurse.Layout
import Chatcurse.Query
import Chatcurse.Client
import Chatcurse.System
import Chatcurse.Theory.OrdSet
import Chatcurse.Theory.Run
import Chatcurse.Theory.IndexedSet
import Chatcurse.Theory.Coalesce
import Chatcurse.Verify.Coherence
import Chatcurse.Verify.DisplayedList
import Chatcurse.Verify.EventQueue
import Chatcurse.Verify.History
import Chatcurse.Verify.Layout
import Chatcurse.Verify.Query
import Chatcurse.Verify.System
import Chatcurse.Verify.Scroll
import Chatcurse.Verify.OpenedChat
import Chatcurse.Verify.MessagePane
import Chatcurse.Verify.Interference
import Chatcurse.Verify.PositionMove
import Chatcurse.Verify.Locking
import Chatcurse.Paint
import Chatcurse.Theory.Grid
import Chatcurse.Theory.Viewport
import Chatcurse.Verify.Drawing
import Chatcurse.Verify.MessageRows
import Chatcurse.Verify.Cursor
import Chatcurse.Verify.Navigation
import Chatcurse.Verify.MessageNavigation
import Chatcurse.Verify.SidePane
import Chatcurse.Verify.ChatTable
import Chatcurse.Auth
import Chatcurse.Verify.Auth
import Chatcurse.Verify.HitTest
import Chatcurse.Verify.KeyPrefix
import Chatcurse.Verify.TypingDrag
import Chatcurse.Theory.Utf8
import Chatcurse.Verify.Utf8
import Chatcurse.QrDisplay
import Chatcurse.Theory.Raster
import Chatcurse.Verify.QrDisplay
import Chatcurse.Theory.Hamming
import Chatcurse.Theory.ReedSolomon
import Chatcurse.Theory.Positional
import Chatcurse.Theory.Interleave
import Chatcurse.Theory.Tiling
import Chatcurse.Theory.Placement
import Chatcurse.QrSegment
import Chatcurse.QrEncode
import Chatcurse.QrDraw
import Chatcurse.Verify.QrField
import Chatcurse.Verify.QrBlocks
import Chatcurse.Verify.QrSegments
import Chatcurse.Verify.QrData
import Chatcurse.Verify.QrPatterns
import Chatcurse.Verify.QrRegion
import Chatcurse.Verify.QrColours
import Chatcurse.Verify.QrScan
import Chatcurse.Verify.QrPenalty
import Chatcurse.Verify.QrMask
import Chatcurse.Verify.QrConstruct
import Chatcurse.Verify.QrRead
import Chatcurse.Verify.QrDamage
import Chatcurse.Verify.QrSymbol
import Chatcurse.Theory.Atomic
import Chatcurse.Verify.Atomicity
import Chatcurse.Verify.Progress
import Chatcurse.Verify.QrCapacity
